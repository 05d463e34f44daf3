import Crucible.ContentHash
import Mathlib.Algebra.Order.BigOperators.Group.List
import Mathlib.Algebra.Order.Ring.Abs
import Mathlib.Data.List.TakeWhile
import Mathlib.Tactic.IntervalCases
import Mathlib.Tactic.Linarith

/-! # The offsets that a tensor reaches

What `compute_storage_nbytes_scalar` says of the index tuples of a tensor, and
`compute_storage_nbytes_simd` beside it.  The positive products of the dimensions sum
to the highest offset, the others to the lowest.  The scalar loop returns at the first
overflow or zero size, whichever it meets; the vector routine looks for a zero size
in all lanes before it multiplies.
-/
namespace Crucible
open List Function TensorMeta

/-- The live dimensions, each with its size and its stride. -/
def TensorMeta.dims (tensor : TensorMeta) : List (Int × Int) :=
  (range tensor.ndim).map fun d => (tensor.sizes.getD d 0, tensor.strides.getD d 0)

/-- `dim_extent_bytes` before its check. -/
def dimExtent (dim : Int × Int) : Int := sizeMinusOne dim.1 * dim.2

def highest (dims : List (Int × Int)) : Int := (dims.map fun dim => max (dimExtent dim) 0).sum

def lowest (dims : List (Int × Int)) : Int := (dims.map fun dim => min (dimExtent dim) 0).sum

/-- Both offsets are `int64_t` values. -/
abbrev OffsetsFit (dims : List (Int × Int)) : Prop :=
  highest dims < 2 ^ 63 ∧ -(2 ^ 63) ≤ lowest dims

/-- The dimensions before the first zero size. -/
def beforeZero (dims : List (Int × Int)) : List (Int × Int) := dims.takeWhile (·.1 ≠ 0)

/-- An offset that an index tuple `0 ≤ i_d < size_d` reaches. -/
inductive Reaches : List (Int × Int) → Int → Prop
  | nil : Reaches [] 0
  | cons {i size stride o : Int} {dims : List (Int × Int)} : 0 ≤ i → i < size → Reaches dims o →
      Reaches ((size, stride) :: dims) (i * stride + o)

variable {tensor : TensorMeta} {dims : List (Int × Int)} {dim : Int × Int} {hi lo : Int}

theorem highest_cons : highest (dim :: dims) = max (dimExtent dim) 0 + highest dims := rfl

theorem lowest_cons : lowest (dim :: dims) = min (dimExtent dim) 0 + lowest dims := rfl

theorem offsets_sign (dims : List (Int × Int)) : lowest dims ≤ 0 ∧ 0 ≤ highest dims := by
  induction dims with
  | nil => exact ⟨le_rfl, le_rfl⟩
  | cons dim dims ih =>
    rw [lowest_cons, highest_cons]
    omega

/-! ### The scalar routine -/

theorem spanDim_eq (hsize : dim.1 ≠ 0) (hhi : 0 ≤ hi ∧ hi < 2 ^ 63)
    (hlo : lo ≤ 0 ∧ -(2 ^ 63) ≤ lo) : spanDim (hi, lo) dim.1 dim.2 =
      if hi + max (dimExtent dim) 0 < 2 ^ 63 ∧ -(2 ^ 63) ≤ lo + min (dimExtent dim) 0 then
        .ok (hi + max (dimExtent dim) 0, lo + min (dimExtent dim) 0)
      else .error .overflow := by
  simp only [spanDim, if_neg hsize, ← dimExtent.eq_def dim]
  generalize dimExtent dim = e
  rcases le_or_gt e 0 with he | he
  · simp only [checkedI64, max_eq_right he, min_eq_left he]
    grind
  · simp only [checkedI64, max_eq_left he.le, min_eq_right he.le]
    grind

theorem foldlM_spanDim (dims : List (Int × Int)) (hi lo : Int) (hhi : 0 ≤ hi ∧ hi < 2 ^ 63)
    (hlo : lo ≤ 0 ∧ -(2 ^ 63) ≤ lo) :
    dims.foldlM (fun acc dim => spanDim acc dim.1 dim.2) (hi, lo) =
      if hi + highest (beforeZero dims) < 2 ^ 63 ∧ -(2 ^ 63) ≤ lo + lowest (beforeZero dims) then
        if ∃ dim ∈ dims, dim.1 = 0 then .error { value := 0 }
        else .ok (hi + highest (beforeZero dims), lo + lowest (beforeZero dims))
      else .error .overflow := by
  induction dims generalizing hi lo with
  | nil =>
    simp [beforeZero, highest, lowest, pure, Except.pure]
    omega
  | cons dim dims ih =>
    rw [foldlM_cons, beforeZero, takeWhile_cons]
    by_cases hsize : dim.1 = 0
    · simp [spanDim, hsize, bind, Except.bind, highest, lowest]
      omega
    · simp only [spanDim_eq hsize hhi hlo, hsize, ne_eq, not_false_eq_true, decide_true, if_true,
        highest_cons, lowest_cons, mem_cons, exists_eq_or_imp, false_or, ← beforeZero.eq_def dims,
        ← add_assoc]
      split
      · exact ih _ _ (by omega) (by omega)
      · have hrest := offsets_sign (beforeZero dims)
        rw [if_neg (by omega)]
        rfl

theorem beforeZero_eq (h : ¬∃ dim ∈ dims, dim.1 = 0) : beforeZero dims = dims := by
  refine takeWhile_eq_self_iff.mpr fun dim hdim => ?_
  exact decide_eq_true fun hzero => h ⟨dim, hdim, hzero⟩

/-- The end of both routines: an early return, or the bytes of the span. -/
def spanResult (dtype : ScalarType) : Except Saturated (Int × Int) → Saturated
  | .error early => early
  | .ok offsets => spanBytes offsets dtype

theorem computeStorageNbytes_of_ndim (h : tensor.ndim ≠ 0) : computeStorageNbytes tensor =
    spanResult tensor.dtype
      (tensor.dims.foldlM (fun acc dim => spanDim acc dim.1 dim.2) (0, 0)) := by
  rw [computeStorageNbytes, if_neg h, dims, foldlM_map]
  rfl

theorem computeStorageNbytes_eq (tensor : TensorMeta) : computeStorageNbytes tensor =
    if OffsetsFit (beforeZero tensor.dims) then
      if ∃ dim ∈ tensor.dims, dim.1 = 0 then { value := 0 }
      else spanBytes (highest tensor.dims, lowest tensor.dims) tensor.dtype
    else .overflow := by
  by_cases h : tensor.ndim = 0
  · have hlt := elementSize_lt tensor.dtype
    simp [computeStorageNbytes, dims, h, beforeZero, OffsetsFit, highest, lowest,
      spanBytes, checkedI64]
    omega
  · rw [computeStorageNbytes_of_ndim h, foldlM_spanDim _ 0 0 (by omega) (by omega)]
    simp only [zero_add]
    split_ifs with hfit hzero
    · rfl
    · rw [beforeZero_eq hzero]
      rfl
    · rfl

theorem spanBytes_eq (h : lo ≤ hi) (dtype : ScalarType) : spanBytes (hi, lo) dtype =
    if hi - lo + 1 < 2 ^ 63 ∧ (hi - lo + 1) * elementSize dtype < 2 ^ 64 then
      { value := ((hi - lo + 1) * elementSize dtype).toNat }
    else .overflow := by
  have hnat : (hi - lo + 1).toNat * elementSize dtype =
      ((hi - lo + 1) * elementSize dtype).toNat := by
    rw [Int.toNat_mul (by omega) (by omega), Int.toNat_natCast]
  rw [spanBytes]
  rcases lt_or_ge (hi - lo + 1) (2 ^ 63) with hlt | hge
  · have hspan : checkedI64 (hi - lo) = some (hi - lo) := if_pos (by omega)
    have hnext : checkedI64 (hi - lo + 1) = some (hi - lo + 1) := if_pos (by omega)
    simp only [hspan, hnext, hlt, true_and, hnat]
    exact if_congr (by omega) rfl rfl
  · rw [if_neg (by omega)]
    have hnext : checkedI64 (hi - lo + 1) = none := if_neg (by omega)
    cases hspan : checkedI64 (hi - lo) with
    | none => rfl
    | some span =>
      rw [checkedI64] at hspan
      split at hspan <;> cases hspan
      simp only [hnext]

theorem Reaches.bounds {o : Int} (h : Reaches dims o) : lowest dims ≤ o ∧ o ≤ highest dims := by
  induction h with
  | nil => exact ⟨le_rfl, le_rfl⟩
  | @cons i size stride o dims hi hlt _ ih =>
    have hsize : sizeMinusOne size = size - 1 := if_neg (by omega)
    simp only [lowest_cons, highest_cons, dimExtent, hsize]
    rcases le_total stride 0 with hs | hs
    · have hlast : (size - 1) * stride ≤ i * stride := by nlinarith
      have hfirst : i * stride ≤ 0 := by nlinarith
      omega
    · have hlast : i * stride ≤ (size - 1) * stride := by nlinarith
      have hfirst : 0 ≤ i * stride := by nlinarith
      omega

theorem reaches_highest_lowest (h : ∀ dim ∈ dims, 0 < dim.1) :
    Reaches dims (highest dims) ∧ Reaches dims (lowest dims) := by
  induction dims with
  | nil => exact ⟨.nil, .nil⟩
  | cons dim dims ih =>
    obtain ⟨hpos, hrest⟩ := forall_mem_cons.mp h
    obtain ⟨hhigh, hlow⟩ := ih hrest
    have hlast {o : Int} (ho : Reaches dims o) : Reaches (dim :: dims) (dimExtent dim + o) := by
      rw [dimExtent, show sizeMinusOne dim.1 = dim.1 - 1 from if_neg (by omega)]
      exact .cons (by omega) (by omega) ho
    have hfirst {o : Int} (ho : Reaches dims o) : Reaches (dim :: dims) (0 + o) := by
      rw [← zero_mul dim.2]
      exact .cons le_rfl hpos ho
    rw [highest_cons, lowest_cons]
    rcases le_total (dimExtent dim) 0 with he | he
    · rw [max_eq_right he, min_eq_left he]
      exact ⟨hfirst hhigh, hlast hlow⟩
    · rw [max_eq_left he, min_eq_right he]
      exact ⟨hlast hhigh, hfirst hlow⟩

/-- **The scalar routine is exact up to its first exit.**  It clamps when an offset
overflows before the first zero size, or, with no zero size, when the span or its
bytes do. -/
theorem computeStorageNbytes_exact (tensor : TensorMeta) :
    let span := highest tensor.dims - lowest tensor.dims + 1
    ((computeStorageNbytes tensor).clamped = true ↔ ¬OffsetsFit (beforeZero tensor.dims) ∨
      (¬∃ dim ∈ tensor.dims, dim.1 = 0) ∧
        ¬(span < 2 ^ 63 ∧ span * elementSize tensor.dtype < 2 ^ 64)) ∧
    ((computeStorageNbytes tensor).clamped = false → ((computeStorageNbytes tensor).value : Int) =
      if ∃ dim ∈ tensor.dims, dim.1 = 0 then 0 else span * elementSize tensor.dtype) ∧
    ((∀ dim ∈ tensor.dims, 0 < dim.1) →
      IsGreatest {o | Reaches tensor.dims o} (highest tensor.dims) ∧
        IsLeast {o | Reaches tensor.dims o} (lowest tensor.dims)) := by
  rw [← and_assoc]
  refine ⟨?_, fun hpos => ⟨⟨(reaches_highest_lowest hpos).1, fun _ h => h.bounds.2⟩,
    (reaches_highest_lowest hpos).2, fun _ h => h.bounds.1⟩⟩
  have hsign := offsets_sign tensor.dims
  rw [computeStorageNbytes_eq, spanBytes_eq (hsign.1.trans hsign.2)]
  split_ifs with hfit hzero hspan
  · refine ⟨iff_of_false id ?_, fun _ => rfl⟩
    rintro (h | ⟨h, -⟩)
    exacts [h hfit, h hzero]
  · refine ⟨iff_of_false id (by tauto), fun _ => ?_⟩
    exact Int.toNat_of_nonneg (mul_nonneg (by omega) (by omega))
  · exact ⟨iff_of_true rfl (.inr ⟨hzero, hspan⟩), fun h => by cases h⟩
  all_goals exact ⟨iff_of_true rfl (.inl hfit), fun h => by cases h⟩

/-- Two dimensions of `2 ^ 63 - 16` bytes each. -/
def wideTensor : TensorMeta :=
  { sizes := [17, 17], strides := [2 ^ 59 - 1, 2 ^ 59 - 1], ndim := 2, dtype := .byte }

/-- Two products that fit sum past the signed word, and the result is clamped although
the bytes fit the unsigned one. -/
theorem sum_clamps_fitting_bytes : (computeStorageNbytes wideTensor).clamped = true ∧
    (∀ dim ∈ wideTensor.dims, IsInt64 (dimExtent dim)) ∧
    ∀ o, Reaches wideTensor.dims o → 0 ≤ o ∧ (o + 1) * elementSize .byte < 2 ^ 64 := by
  refine ⟨by decide, by decide, fun o ho => ?_⟩
  have hlow : lowest wideTensor.dims = 0 := by decide
  have hhigh : highest wideTensor.dims = 2 ^ 64 - 32 := by decide
  have hbounds := ho.bounds
  rw [elementSize]
  omega

/-! ### The vector routine -/

/-- The eight lanes.  A dead lane has size one and stride zero. -/
def TensorMeta.lanes (tensor : TensorMeta) : List (Int × Int) :=
  (range 8).map fun d =>
    if d < tensor.ndim then (tensor.sizes.getD d 0, tensor.strides.getD d 0) else (1, 0)

/-- `reduce_max` of a value of each lane. -/
def TensorMeta.reduceMax (tensor : TensorMeta) (f : Int × Int → Int) : Int :=
  (tensor.lanes.map f).max (by simp [lanes])

def storageNbytesSimdSafe (tensor : TensorMeta) : Bool :=
  let everySizePositive := !tensor.lanes.any (·.1 < 1)
  let maxSmo := tensor.reduceMax fun lane => max lane.1 1 - 1
  let maxStr := tensor.reduceMax fun lane => |max lane.2 (-(2 ^ 63 - 1))|
  everySizePositive && (checkedI64 (maxSmo * maxStr)).isSome

def addExtent (offsets : Int × Int) (e : Int) : Except Saturated (Int × Int) :=
  let (maxOffset, minOffset) := offsets
  if e > 0 then
    match checkedI64 (maxOffset + e) with
    | none => .error .overflow
    | some maxOffset => .ok (maxOffset, minOffset)
  else
    match checkedI64 (minOffset + e) with
    | none => .error .overflow
    | some minOffset => .ok (maxOffset, minOffset)

/-- `compute_storage_nbytes_simd`.  The multiply of the lanes wraps. -/
def computeStorageNbytesSimd (tensor : TensorMeta) : Saturated :=
  if tensor.ndim = 0 then { value := elementSize tensor.dtype }
  else if tensor.lanes.any (·.1 == 0) then { value := 0 }
  else if !storageNbytesSimdSafe tensor then computeStorageNbytes tensor
  else
    let extents := tensor.lanes.map fun lane => (dimExtent lane).bmod (2 ^ 64)
    spanResult tensor.dtype ((extents.take tensor.ndim).foldlM addExtent (0, 0))

theorem lanes_eq (h : tensor.ndim ≤ 8) :
    tensor.lanes = tensor.dims ++ replicate (8 - tensor.ndim) (1, 0) := by
  simp only [lanes, dims]
  generalize tensor.ndim = n at h
  interval_cases n <;> rfl

theorem foldlM_addExtent (acc : Int × Int)
    (h : ∀ dim ∈ dims, dim.1 ≠ 0 ∧ IsInt64 (dimExtent dim)) :
    (dims.map fun dim => (dimExtent dim).bmod (2 ^ 64)).foldlM addExtent acc =
      dims.foldlM (fun acc dim => spanDim acc dim.1 dim.2) acc := by
  induction dims generalizing acc with
  | nil => rfl
  | cons dim dims ih =>
    obtain ⟨⟨hsize, hint⟩, hrest⟩ := forall_mem_cons.mp h
    have hcheck : checkedI64 (sizeMinusOne dim.1 * dim.2) = some (dimExtent dim) := if_pos hint
    have hstep : spanDim acc dim.1 dim.2 = addExtent acc (dimExtent dim) := by
      simp only [spanDim, if_neg hsize, hcheck]
      rfl
    rw [IsInt64] at hint
    rw [map_cons, foldlM_cons, foldlM_cons, hstep, Int.bmod_eq_of_le (by omega) (by omega)]
    exact congrArg (_ >>= ·) (funext fun acc => ih acc hrest)

theorem simdSafe_fits {lane : Int × Int} (hsafe : storageNbytesSimdSafe tensor)
    (hlane : lane ∈ tensor.lanes) (hstride : -(2 ^ 63) ≤ lane.2) : IsInt64 (dimExtent lane) := by
  simp only [storageNbytesSimdSafe, Bool.and_eq_true, Bool.not_eq_true', any_eq_false,
    decide_eq_true_eq, not_lt] at hsafe
  have hpos := hsafe.1 lane hlane
  have hle {f : Int × Int → Int} : f lane ≤ tensor.reduceMax f :=
    le_max_of_mem (mem_map_of_mem hlane)
  have hprod : (max lane.1 1 - 1) * |max lane.2 (-(2 ^ 63 - 1))| < 2 ^ 63 := by
    refine (mul_le_mul hle hle (abs_nonneg _) ?_).trans_lt (Option.isSome_ite.mp hsafe.2).2
    exact le_trans (by omega) hle
  rw [max_eq_left hpos] at hprod
  rw [dimExtent, show sizeMinusOne lane.1 = lane.1 - 1 from if_neg (by omega), IsInt64]
  -- The clamp moves only the least stride, which still fits when it is taken once.
  rcases hstride.eq_or_lt with heq | hlt
  · have habs : |max (-(2 ^ 63)) (-(2 ^ 63 - 1))| = (2 ^ 63 - 1 : Int) := by decide
    rw [← heq] at hprod ⊢
    rw [habs] at hprod
    omega
  · rw [max_eq_left (by omega), ← abs_of_nonneg (sub_nonneg.mpr hpos), ← abs_mul] at hprod
    exact ⟨(abs_lt.mp hprod).1.le, (abs_lt.mp hprod).2⟩

/-- The vector routine answers zero for a zero size, and as the scalar one otherwise. -/
theorem computeStorageNbytesSimd_eq (hwf : tensor.WellFormed) :
    computeStorageNbytesSimd tensor = if ∃ dim ∈ tensor.dims, dim.1 = 0 then { value := 0 }
      else computeStorageNbytes tensor := by
  have hlanes := lanes_eq hwf.ndim_le
  have hany : tensor.lanes.any (·.1 == 0) = true ↔ ∃ dim ∈ tensor.dims, dim.1 = 0 := by
    simp [hlanes]
  simp only [computeStorageNbytesSimd, hany]
  split_ifs with hdim hzero hzero hsafe
  · simp [dims, hdim] at hzero
  · rw [computeStorageNbytes, if_pos hdim]
  · rfl
  · rfl
  have hfit : ∀ dim ∈ tensor.dims, dim.1 ≠ 0 ∧ IsInt64 (dimExtent dim) := by
    intro dim hmem
    refine ⟨fun h => hzero ⟨dim, hmem, h⟩, ?_⟩
    refine simdSafe_fits (by simpa using hsafe) (hlanes ▸ mem_append_left _ hmem) ?_
    obtain ⟨d, -, rfl⟩ := mem_map.mp hmem
    rcases lt_or_ge d tensor.strides.length with hlt | hge
    · simpa [hlt] using (hwf.strides_int _ (getElem_mem hlt)).1.1
    · simp [hge]
  have htake (f : Int × Int → Int) : (tensor.lanes.map f).take tensor.ndim = tensor.dims.map f := by
    rw [hlanes]
    simp [dims]
  rw [htake, foldlM_addExtent _ hfit, computeStorageNbytes_of_ndim hdim]

/-- **The vector and the scalar routine agree exactly when the offsets before the first
zero size fit**, for a tensor with one. -/
theorem simd_agrees_iff (tensor : TensorMeta) (hwf : tensor.WellFormed) :
    computeStorageNbytesSimd tensor = computeStorageNbytes tensor ↔
      ((∃ dim ∈ tensor.dims, dim.1 = 0) → OffsetsFit (beforeZero tensor.dims)) := by
  rw [computeStorageNbytesSimd_eq hwf, computeStorageNbytes_eq]
  split_ifs with hzero hfit hfit
  · exact iff_of_true rfl fun _ => hfit
  · refine iff_of_false (fun h => ?_) fun h => hfit (h hzero)
    cases congrArg Saturated.clamped h
  · exact iff_of_true rfl fun h => absurd h hzero
  · exact iff_of_true rfl fun h => absurd h hzero

/-- A tensor with a size of zero, after the other one or before it. -/
def emptyTensor (sizes strides : List Int) : TensorMeta :=
  { sizes, strides, ndim := 2, dtype := .float }

theorem simd_agrees_iff_zeroFirst :
    computeStorageNbytesSimd (emptyTensor [0, 2 ^ 40] [1, 2 ^ 40]) =
      computeStorageNbytes (emptyTensor [0, 2 ^ 40] [1, 2 ^ 40]) :=
  (simd_agrees_iff _ ⟨by decide, by decide, by decide⟩).mpr fun _ => by decide

theorem zero_size_hides_overflow :
    computeStorageNbytesSimd (emptyTensor [2 ^ 40, 0] [2 ^ 40, 1]) = { value := 0 } ∧
      computeStorageNbytes (emptyTensor [2 ^ 40, 0] [2 ^ 40, 1]) = .overflow := by
  decide

end Crucible
