import Crucible.Loops
import Crucible.Types
import Mathlib.Algebra.BigOperators.Fin
import Mathlib.Algebra.Order.BigOperators.Group.Finset
import Mathlib.Data.Nat.Bitwise
import Mathlib.Data.Rat.Floor
import Mathlib.Tactic.IntervalCases

/-! # The latency histogram

`HdrLayout` gives every value a bucket: values below the sub-bucket count have one each, and above
it each power of two is cut into the same number of buckets.  The value that is reported for a
bucket is the smallest one in it (`hdrLayout_exact`).

`HdrHistogram` counts the samples of each bucket and all samples in a word of its own.  A
subtraction saturates each count and the total separately, so the two agree afterwards exactly if
one of the histograms is contained in the other (`totals_exact_iff`).
-/
namespace Crucible
open Finset Function

/-! ### The layout -/

/-- `std::bit_width`. -/
def bitWidth (x : Nat) : Nat := if x = 0 then 0 else x.log2 + 1

/-- `std::countr_zero`. -/
def countrZero (x : Nat) : Nat := ((List.range 64).find? x.testBit).getD 64

def nextPowerOfTwo (x : Nat) : Nat := if x ≤ 1 then 1 else 1 <<< bitWidth (x - 1)

/-- `HdrLayout`, with the arguments that its static assertions accept. -/
structure HdrLayout where
  significant : Nat
  maxValue : Nat
  significant_mem : 1 ≤ significant ∧ significant ≤ 5
  maxValue_mem : 0 < maxValue ∧ maxValue < 2 ^ 64

namespace HdrLayout
variable (L : HdrLayout)

def subBucketCount : Nat := nextPowerOfTwo (10 ^ L.significant * 2)

def subBucketHalfCount : Nat := L.subBucketCount / 2

/-- `sub_bucket_half_count_magnitude`. -/
def halfCountMagnitude : Nat := countrZero L.subBucketHalfCount

def bucketIndex (value : Nat) : Nat :=
  let bitCount := bitWidth (value ||| (L.subBucketCount - 1))
  if bitCount > L.halfCountMagnitude + 1 then bitCount - L.halfCountMagnitude - 1 else 0

def countsLen : Nat := (L.bucketIndex L.maxValue + 1 + 1) * L.subBucketHalfCount

def countsIndex (value : Nat) : Nat :=
  let bucket := L.bucketIndex value
  if bucket = 0 then value
  else (bucket + 1) * L.subBucketHalfCount + (value >>> bucket - L.subBucketHalfCount)

def valueFromIndex (index : Nat) : Nat :=
  let half := L.subBucketHalfCount
  let bucket := index >>> L.halfCountMagnitude
  let subBucket := (index &&& (half - 1)) + half
  if bucket = 0 then wrap64 ((subBucket - half) <<< bucket) else wrap64 (subBucket <<< (bucket - 1))

variable {L} {v x y n : Nat}

theorem bitWidth_le : bitWidth x ≤ n ↔ x < 2 ^ n := by
  rw [bitWidth]
  split
  · simp [*]
  · rw [Nat.succ_le_iff, Nat.log2_lt ‹_›]

theorem bitWidth_or : bitWidth (x ||| y) = max (bitWidth x) (bitWidth y) := by
  refine eq_of_forall_ge_iff fun n => ?_
  rw [max_le_iff, bitWidth_le, bitWidth_le, bitWidth_le]
  exact ⟨fun h => ⟨Nat.left_le_or.trans_lt h, Nat.right_le_or.trans_lt h⟩,
    fun h => Nat.or_lt_two_pow h.1 h.2⟩

theorem sizes : L.subBucketCount = 2 ^ (L.halfCountMagnitude + 1) ∧
    L.subBucketHalfCount = 2 ^ L.halfCountMagnitude ∧
    10 ^ L.significant ≤ 2 ^ L.halfCountMagnitude ∧
    bitWidth (L.subBucketCount - 1) = L.halfCountMagnitude + 1 := by
  obtain ⟨h1, h5⟩ := L.significant_mem
  simp only [halfCountMagnitude, subBucketHalfCount, subBucketCount]
  generalize L.significant = s at h1 h5 ⊢
  interval_cases s <;> decide

theorem bucketIndex_eq : L.bucketIndex v = bitWidth v - (L.halfCountMagnitude + 1) := by
  rw [bucketIndex, bitWidth_or, sizes.2.2.2]
  split <;> omega

theorem bucketIndex_mono (h : x ≤ y) : L.bucketIndex x ≤ L.bucketIndex y := by
  rw [bucketIndex_eq, bucketIndex_eq]
  exact Nat.sub_le_sub_right (bitWidth_le.mpr (h.trans_lt (bitWidth_le.mp le_rfl))) _

/-- What is kept of a value has the width of a sub-bucket number, and the top bit of that width
unless nothing was dropped. -/
theorem kept_bounds (L : HdrLayout) (v : Nat) :
    v / 2 ^ L.bucketIndex v < 2 ^ L.halfCountMagnitude * 2 ∧
      (L.bucketIndex v ≠ 0 → 2 ^ L.halfCountMagnitude ≤ v / 2 ^ L.bucketIndex v) := by
  have hb : L.bucketIndex v = _ := bucketIndex_eq
  rw [Nat.div_lt_iff_lt_mul (Nat.two_pow_pos _), Nat.le_div_iff_mul_le (Nat.two_pow_pos _),
    ← pow_succ, ← pow_add, ← pow_add, ← bitWidth_le, ← not_lt (b := 2 ^ _), ← bitWidth_le]
  omega

/-- The index of a value: what is kept of it, after one half for each bit that was dropped. -/
theorem countsIndex_eq : L.countsIndex v =
    v / 2 ^ L.bucketIndex v + L.bucketIndex v * 2 ^ L.halfCountMagnitude := by
  have hkept := (kept_bounds L v).2
  simp only [countsIndex, Nat.shiftRight_eq_div_pow, sizes.2.1]
  split
  · simp [*]
  · rw [Nat.succ_mul, add_assoc, Nat.add_sub_cancel' (hkept ‹_›), add_comm]

abbrev lowest (L : HdrLayout) (v : Nat) : Nat := v / 2 ^ L.bucketIndex v * 2 ^ L.bucketIndex v

theorem valueFromIndex_countsIndex (hv : v < 2 ^ 64) :
    L.valueFromIndex (L.countsIndex v) = L.lowest v := by
  rw [lowest]
  obtain ⟨hlt, hge⟩ := kept_bounds L v
  have hword := (Nat.div_mul_le_self v (2 ^ L.bucketIndex v)).trans_lt hv
  simp only [valueFromIndex, countsIndex_eq, sizes.2.1, Nat.and_two_pow_sub_one_eq_mod,
    Nat.shiftRight_eq_div_pow, Nat.shiftLeft_eq, Nat.add_mul_mod_self_right,
    Nat.add_mul_div_right _ _ (Nat.two_pow_pos _)]
  generalize v / 2 ^ L.bucketIndex v = kept at hlt hge hword ⊢
  by_cases hsmall : kept < 2 ^ L.halfCountMagnitude
  · have hb : L.bucketIndex v = 0 := by_contra fun hb => hsmall.not_ge (hge hb)
    rw [hb, pow_zero, mul_one] at hword ⊢
    simp [Nat.div_eq_of_lt hsmall, Nat.mod_eq_of_lt hsmall, wrap64_of_lt hword]
  · -- the top bit of what is kept counts as one more bucket
    have hdiv : kept / 2 ^ L.halfCountMagnitude = 1 := by
      rw [Nat.div_eq_iff (Nat.two_pow_pos _)]
      omega
    have hmod := Nat.mod_add_div kept (2 ^ L.halfCountMagnitude)
    rw [hdiv, mul_one] at hmod
    simp [hdiv, hmod, wrap64_of_lt hword]

theorem countsIndex_lt_of_bucket (h : L.bucketIndex x < L.bucketIndex y) :
    L.countsIndex x < L.countsIndex y := by
  have hx := (kept_bounds L x).1
  have hy := (kept_bounds L y).2 (Nat.ne_zero_of_lt h)
  have hhalves := Nat.mul_le_mul_right (2 ^ L.halfCountMagnitude) (Nat.succ_le_of_lt h)
  rw [Nat.succ_mul] at hhalves
  rw [countsIndex_eq, countsIndex_eq]
  omega

theorem countsIndex_mono (h : x ≤ y) : L.countsIndex x ≤ L.countsIndex y := by
  obtain heq | hlt := (bucketIndex_mono (L := L) h).eq_or_lt
  · rw [countsIndex_eq, countsIndex_eq, heq]
    exact Nat.add_le_add_right (Nat.div_le_div_right h) _
  · exact (countsIndex_lt_of_bucket hlt).le

theorem countsIndex_lt (hv : v ≤ L.maxValue) : L.countsIndex v < L.countsLen := by
  refine (countsIndex_mono hv).trans_lt ?_
  rw [countsIndex_eq, countsLen, sizes.2.1, add_assoc, add_mul]
  have := (kept_bounds L L.maxValue).1
  omega

theorem low_le (h : L.countsIndex x = L.countsIndex y) :
    L.lowest y ≤ x := by
  have hb : L.bucketIndex x = L.bucketIndex y := le_antisymm
    (not_lt.mp fun hlt => (countsIndex_lt_of_bucket hlt).ne' h)
    (not_lt.mp fun hlt => (countsIndex_lt_of_bucket hlt).ne h)
  rw [countsIndex_eq, countsIndex_eq, hb] at h
  rw [lowest, ← Nat.add_right_cancel h]
  exact Nat.div_mul_le_self _ _

theorem countsIndex_low :
    L.countsIndex (L.lowest v) = L.countsIndex v := by
  have hle := Nat.div_mul_le_self v (2 ^ L.bucketIndex v)
  have hb : L.bucketIndex (L.lowest v) = L.bucketIndex v := by
    refine (bucketIndex_mono hle).antisymm ?_
    by_cases h0 : L.bucketIndex v = 0
    · omega
    · have hlow := Nat.mul_le_mul_right (2 ^ L.bucketIndex v) ((kept_bounds L v).2 h0)
      rw [← pow_add, ← not_lt, ← bitWidth_le] at hlow
      rw [bucketIndex_eq (v := _ * _)]
      omega
  rw [countsIndex_eq, hb, Nat.mul_div_cancel _ (Nat.two_pow_pos _), ← countsIndex_eq]

/-- What is reported for a value: itself while it has a bucket of its own, and above that a
smaller value that is off by less than the digits resolve. -/
structure Reports (L : HdrLayout) (v low : Nat) : Prop where
  le : low ≤ v
  exact : v < L.subBucketCount → low = v
  digits : L.subBucketCount ≤ v → v - low < v / 10 ^ L.significant

theorem reports_low (L : HdrLayout) (v : Nat) :
    L.Reports v (L.lowest v) := by
  obtain ⟨hcount, -, hdigits, -⟩ := sizes (L := L)
  have hb : L.bucketIndex v = _ := bucketIndex_eq
  refine ⟨Nat.div_mul_le_self _ _, fun hv => ?_, fun hv => ?_⟩
  · rw [hcount, ← bitWidth_le] at hv
    rw [lowest, hb, Nat.sub_eq_zero_of_le hv, pow_zero, Nat.div_one, mul_one]
  · rw [hcount, ← not_lt, ← bitWidth_le] at hv
    have hkept := (kept_bounds L v).2 (by omega)
    calc v - L.lowest v = v % 2 ^ L.bucketIndex v := by
          rw [Nat.mod_eq_sub_div_mul]
      _ < 2 ^ L.bucketIndex v := Nat.mod_lt _ (Nat.two_pow_pos _)
      _ ≤ v / 10 ^ L.significant := by
          rw [Nat.le_div_iff_mul_le (Nat.two_pow_pos _)] at hkept
          rw [Nat.le_div_iff_mul_le (by positivity), mul_comm]
          exact (Nat.mul_le_mul_right _ hdigits).trans hkept

/-- `value_type`. -/
abbrev Value (L : HdrLayout) := { v // v ≤ L.maxValue }

def bucketOf (L : HdrLayout) (value : L.Value) : Fin L.countsLen :=
  ⟨L.countsIndex value, countsIndex_lt value.2⟩

end HdrLayout

/-! ### The counts -/

/-- `HdrHistogram`: the count of each bucket, and of all samples. -/
structure HdrHistogram (L : HdrLayout) where
  counts : Fin L.countsLen → Nat := 0
  totalCount : Nat := 0

/-- The rounding of the doubles: it keeps the order, and the integers that are doubles. -/
structure DoubleRounding where
  round : ℚ → ℚ
  mono : Monotone round
  exact : ∀ n : Nat, n ≤ 2 ^ 53 → round n = n

namespace HdrHistogram
variable {L : HdrLayout}

def record (h : HdrHistogram L) (value : L.Value) : HdrHistogram L :=
  { counts := h.counts + Pi.single (L.bucketOf value) 1, totalCount := h.totalCount + 1 }

/-- The loop of `percentile`, which looks for the bucket that the sample of a rank is in. -/
def findRank (h : HdrHistogram L) (rank : Nat) : List (Fin L.countsLen) → Nat →
    Option (Fin L.countsLen)
  | [], _ => none
  | i :: rest, seen =>
    if rank ≤ seen + h.counts i then some i else h.findRank rank rest (seen + h.counts i)

/-- `percentile`.  A NaN acts as zero does, and an infinity as 101 or -1. -/
def percentile (rnd : DoubleRounding) (h : HdrHistogram L) (pct : ℚ) : Nat :=
  if h.totalCount = 0 ∨ ¬ 0 < pct then 0
  else
    let rank := ⌈rnd.round (rnd.round (min pct 100 / 100) * rnd.round h.totalCount)⌉₊
    (h.findRank (max rank 1) (List.finRange _) 0).elim L.maxValue fun i => L.valueFromIndex i

/-- `merge_from`, which `add_from` also runs. -/
def mergeFrom (h other : HdrHistogram L) : HdrHistogram L :=
  { counts := h.counts + other.counts, totalCount := h.totalCount + other.totalCount }

def saturatingSub (observed amount : Nat) : Nat :=
  if observed > amount then observed - amount else 0

def subtractFrom (h other : HdrHistogram L) : HdrHistogram L :=
  { counts := fun i => saturatingSub (h.counts i) (other.counts i)
    totalCount := saturatingSub h.totalCount other.totalCount }

def Balanced (h : HdrHistogram L) : Prop := h.totalCount = ∑ i, h.counts i

variable {h other : HdrHistogram L}

theorem saturatingSub_eq (a b : Nat) : saturatingSub a b = a - b := by
  unfold saturatingSub
  split <;> omega

theorem balanced_empty : Balanced ({} : HdrHistogram L) := by
  simp [Balanced]

theorem Balanced.record (hb : h.Balanced) (value : L.Value) : (h.record value).Balanced := by
  simp [Balanced, HdrHistogram.record, sum_add_distrib, ← hb.symm]

theorem Balanced.mergeFrom (hb : h.Balanced) (ho : other.Balanced) :
    (h.mergeFrom other).Balanced := by
  simp only [Balanced, HdrHistogram.mergeFrom, Pi.add_apply, sum_add_distrib]
  rw [hb, ho]

/-- What saturates in one bucket is lost to the total only if no other bucket has it over. -/
theorem subtractFrom_balanced_iff (hb : h.Balanced) (ho : other.Balanced) :
    (h.subtractFrom other).Balanced ↔ other.counts ≤ h.counts ∨ h.counts ≤ other.counts := by
  have hsums : ∑ i, (h.counts i - other.counts i) + other.totalCount =
      ∑ i, (other.counts i - h.counts i) + h.totalCount := by
    rw [hb, ho, ← sum_add_distrib, ← sum_add_distrib]
    exact sum_congr rfl fun i _ => by omega
  have hover : ∀ f g : Fin L.countsLen → Nat, f ≤ g ↔ ∑ i, (f i - g i) = 0 := by
    simp [Pi.le_def, sum_eq_zero_iff, Nat.sub_eq_zero_iff_le]
  rw [hover, hover]
  simp only [Balanced, subtractFrom, saturatingSub_eq]
  omega

theorem findRank_spec {rank : Nat} {buckets : List (Fin L.countsLen)} {seen : Nat}
    (hseen : seen < rank) (hrank : rank ≤ seen + (buckets.map h.counts).sum) :
    ∃ i, 0 < h.counts i ∧ h.findRank rank buckets seen = some i := by
  induction buckets generalizing seen with
  | nil => simp at hrank; omega
  | cons i rest ih =>
    rw [List.map_cons, List.sum_cons, ← add_assoc] at hrank
    rw [findRank]
    split
    · exact ⟨i, by omega, rfl⟩
    · exact ih (by omega) hrank

theorem rank_le (rnd : DoubleRounding) {total : Nat} (htotal : total ≤ 2 ^ 53) (pct : ℚ) :
    ⌈rnd.round (rnd.round (min pct 100 / 100) * rnd.round total)⌉₊ ≤ total := by
  have hone : rnd.round (min pct 100 / 100) ≤ 1 := by
    rw [← Nat.cast_one, ← rnd.exact 1 (by decide)]
    refine rnd.mono ?_
    rw [Nat.cast_one, div_le_one (by norm_num)]
    exact min_le_right _ _
  rw [Nat.ceil_le, rnd.exact total htotal]
  calc rnd.round (rnd.round (min pct 100 / 100) * total) ≤ rnd.round total :=
        rnd.mono (mul_le_of_le_one_left (Nat.cast_nonneg _) hone)
    _ = total := rnd.exact total htotal

/-- What is known of a histogram that recorded the samples of a list. -/
structure Recorded (samples : List L.Value) (h : HdrHistogram L) : Prop where
  balanced : h.Balanced
  total : h.totalCount = samples.length
  sample : ∀ i, 0 < h.counts i → ∃ v ∈ samples, L.bucketOf v = i

theorem foldl_record_recorded (samples : List L.Value) :
    Recorded samples (samples.foldl record {}) := by
  refine foldl_done_inv Recorded ⟨balanced_empty, rfl, by simp⟩ ?_
  intro done v rest h hsplit hr
  refine ⟨hr.balanced.record v, by simp [record, hr.total], fun i hi => ?_⟩
  by_cases hv : L.bucketOf v = i
  · exact ⟨v, by simp, hv⟩
  · have hold : 0 < h.counts i := by simpa [record, Pi.single_apply, Ne.symm hv] using hi
    obtain ⟨u, hu, rfl⟩ := hr.sample i hold
    exact ⟨u, List.mem_append_left _ hu, rfl⟩

end HdrHistogram
open HdrHistogram

/-- **The layout**: every value up to the maximum has a bucket, the buckets are in order, the value
reported for a bucket is the smallest in it and within the digits of all of them, and what a
percentile reports is within the digits of a recorded sample. -/
theorem hdrLayout_exact (L : HdrLayout) :
    (∀ v ≤ L.maxValue, L.countsIndex v < L.countsLen ∧
      (∀ u ≤ v, L.countsIndex u ≤ L.countsIndex v) ∧
      L.Reports v (L.valueFromIndex (L.countsIndex v)) ∧
      L.countsIndex (L.valueFromIndex (L.countsIndex v)) = L.countsIndex v ∧
      ∀ u, L.countsIndex u = L.countsIndex v → L.valueFromIndex (L.countsIndex v) ≤ u) ∧
    ∀ (rnd : DoubleRounding) (samples : List L.Value) (pct : ℚ),
      samples ≠ [] → samples.length ≤ 2 ^ 53 → 0 < pct →
      ∃ v ∈ samples, L.Reports v (percentile rnd (samples.foldl record {}) pct) := by
  have hword : ∀ v ≤ L.maxValue, v < 2 ^ 64 := fun v hv => hv.trans_lt L.maxValue_mem.2
  refine ⟨fun v hv => ⟨L.countsIndex_lt hv, fun u hu => L.countsIndex_mono hu, ?_⟩, ?_⟩
  · rw [L.valueFromIndex_countsIndex (hword v hv)]
    exact ⟨L.reports_low v, L.countsIndex_low, fun u => L.low_le⟩
  · intro rnd samples pct hnil hmany hpct
    have hr := foldl_record_recorded samples
    have hpos : 0 < samples.length := List.length_pos_of_ne_nil hnil
    have hle := rank_le rnd hmany pct
    have hrank := hr.balanced
    rw [HdrHistogram.Balanced, hr.total, Fin.sum_univ_def] at hrank
    rw [percentile, if_neg (by simp [hr.total, hnil, hpct]), hr.total]
    obtain ⟨i, hi, hfind⟩ := findRank_spec (h := samples.foldl record {})
      (lt_max_of_lt_right one_pos) (by rw [← hrank, zero_add]; exact max_le hle hpos)
    obtain ⟨v, hv, rfl⟩ := hr.sample i hi
    simp only [hfind, Option.elim_some]
    rw [HdrLayout.bucketOf, L.valueFromIndex_countsIndex (hword v v.2)]
    exact ⟨v, hv, L.reports_low v⟩

/-- Three digits up to an hour of nanoseconds, the default. -/
def defaultLayout : HdrLayout := ⟨3, 3600000000000, by decide, by decide⟩

/-- A sample of a million nanoseconds. -/
def millisecond : defaultLayout.Value := ⟨1000000, by decide⟩

/-- A percentile of zero is reported as zero, whatever the sample is. -/
theorem zero_percentile_unrelated : ∃ rnd : DoubleRounding, ¬ ∃ v ∈ [millisecond],
    defaultLayout.Reports v (percentile rnd ([millisecond].foldl record {}) 0) := by
  refine ⟨⟨id, monotone_id, fun _ _ => rfl⟩, ?_⟩
  rintro ⟨v, hv, hr⟩
  obtain rfl := List.mem_singleton.mp hv
  exact absurd (hr.digits (by decide)) (by decide)

/-! ### Many histograms -/

/-- The calls on histograms, each with the objects that it names. -/
inductive HistogramCall (L : HdrLayout) (ι : Type) where
  | record (h : ι) (value : L.Value)
  | mergeFrom (h other : ι)
  | addFrom (h other : ι)
  | subtractFrom (h other : ι)
  | reset (h : ι)

section Calls
variable {L : HdrLayout} {ι : Type} [DecidableEq ι]

def histogramStep (hs : ι → HdrHistogram L) : HistogramCall L ι → ι → HdrHistogram L
  | .record h value => update hs h ((hs h).record value)
  | .mergeFrom h other => update hs h ((hs h).mergeFrom (hs other))
  | .addFrom h other => update hs h ((hs h).mergeFrom (hs other))
  | .subtractFrom h other => update hs h ((hs h).subtractFrom (hs other))
  | .reset h => update hs h {}

def histogramRun (calls : List (HistogramCall L ι)) : ι → HdrHistogram L :=
  calls.foldl histogramStep fun _ => {}

/-- A subtraction is from a histogram that contains the other or is contained in it. -/
def Comparable (hs : ι → HdrHistogram L) : HistogramCall L ι → Prop
  | .subtractFrom h other =>
    (hs other).counts ≤ (hs h).counts ∨ (hs h).counts ≤ (hs other).counts
  | _ => True

theorem histogramStep_balanced {hs : ι → HdrHistogram L} (hb : ∀ i, (hs i).Balanced)
    (call : HistogramCall L ι) :
    (∀ i, (histogramStep hs call i).Balanced) ↔ Comparable hs call := by
  have hset : ∀ h (new : HdrHistogram L), (∀ i, (update hs h new i).Balanced) ↔ new.Balanced := by
    intro h new
    refine ⟨fun hall => by simpa using hall h, fun hnew i => ?_⟩
    by_cases hi : i = h
    · rwa [hi, update_self]
    · rw [update_of_ne hi]
      exact hb i
  cases call with
  | record h value => exact (hset h _).trans (iff_true_intro ((hb h).record value))
  | mergeFrom h other | addFrom h other =>
    exact (hset h _).trans (iff_true_intro ((hb h).mergeFrom (hb other)))
  | subtractFrom h other => exact (hset h _).trans (subtractFrom_balanced_iff (hb h) (hb other))
  | reset h => exact (hset h _).trans (iff_true_intro balanced_empty)

/-- **The totals** of all histograms are the sums of their buckets throughout a run exactly if each
subtraction is between histograms one of which contains the other. -/
theorem totals_exact_iff (calls : List (HistogramCall L ι)) :
    (∀ before after, calls = before ++ after → ∀ i, (histogramRun before i).Balanced) ↔
    ∀ before call after, calls = before ++ call :: after →
      Comparable (histogramRun before) call := by
  constructor
  · rintro hall before call after heq
    refine (histogramStep_balanced (hall before _ heq) call).mp fun i => ?_
    have hnext := hall (before ++ [call]) after (by simp [heq]) i
    rwa [histogramRun, List.foldl_append] at hnext
  · exact foldl_before_inv (fun hs : ι → HdrHistogram L => ∀ i, (hs i).Balanced)
      (fun _ => balanced_empty) fun _ call hb => (histogramStep_balanced hb call).mpr

end Calls

/-- One sample in each of two histograms, in different buckets, then the difference. -/
def disjointSubtraction : List (HistogramCall defaultLayout Bool) :=
  [.record true ⟨5, by decide⟩, .record false ⟨7, by decide⟩, .subtractFrom true false]

theorem disjointSubtraction_unbalanced : ¬ (histogramRun disjointSubtraction true).Balanced := by
  intro h
  have hle := single_le_sum_of_canonicallyOrdered
    (f := (histogramRun disjointSubtraction true).counts)
    (mem_univ ⟨5, by decide⟩)
  rw [← h] at hle
  exact absurd hle (by decide)

end Crucible
