import Crucible.Mixing
import Crucible.TraceBuild
import Mathlib.Data.Nat.Bitwise

/-! # The content hash of a region

`ContentHashFold` folds the ops of a region into the key of the kernel cache.  Op after
op it folds the schema hash, one word for each input, the scalar count and the scalar
values (`computeContentHash_eq`).  The words of a list of ops determine the ops as soon as the
schema hash of an op determines its number of inputs and no op misses its scalar array, and
under no weaker condition.
-/
namespace Crucible
open List

/-! ### The words of one op -/

/-- The cast of an `int64_t` to `uint64_t`. -/
def word64 (x : Int) : Nat := (x % 2 ^ 64).toNat

/-- `std::to_underlying` of a `ScalarType`. -/
def ScalarType.code : ScalarType → Int
  | .byte => 0
  | .char => 1
  | .short => 2
  | .int => 3
  | .long => 4
  | .half => 5
  | .float => 6
  | .double => 7
  | .complexHalf => 8
  | .complexFloat => 9
  | .complexDouble => 10
  | .bool => 11
  | .bfloat16 => 15
  | .float8E5m2 => 23
  | .float8E4m3fn => 24
  | .float8E5m2fnuz => 25
  | .float8E4m3fnuz => 26
  | .undefined => -1

/-- `std::to_underlying` of a `DeviceType`. -/
def DeviceType.code : DeviceType → Int
  | .cpu => 0
  | .cuda => 1
  | .mkldnn => 2
  | .hip => 6
  | .xla => 9
  | .mps => 13
  | .metaDevice => 14
  | .privateUse1 => 20

/-- `kDimMix`. -/
def dimMix (i : Nat) : Nat := wrap64 (goldenRatio * (i + 1))

/-- `kMaxTensorNDim`, the number of lanes of a size block. -/
def maxTensorNDim : Nat := 8

/-- The combined lane `d` of `dim_hash_simd`. -/
def dimLane (tensor : TensorMeta) (d : Nat) : Nat :=
  wrap64 (word64 (tensor.sizes.getD d 0) * dimMix d) ^^^
    wrap64 (word64 (tensor.strides.getD d 0) * dimMix (d + 8))

/-- `dim_hash_simd`: the xor over the lanes below the dimension count. -/
def dimHashSimd (tensor : TensorMeta) : Nat :=
  (range (min tensor.ndim maxTensorNDim)).foldl (fun acc d => acc ^^^ dimLane tensor d) 0

/-- `meta_packed`.  The undefined type has a negative code, which the cast extends. -/
def metaPacked (tensor : TensorMeta) : Nat :=
  word64 tensor.dtype.code ||| wrap64 (word64 tensor.deviceType.code <<< 8) |||
    ((tensor.deviceIdx % 2 ^ 8).toNat <<< 16)

/-- The word that an input contributes. -/
def tensorWord (tensor : TensorMeta) : Nat := dimHashSimd tensor ^^^ metaPacked tensor

/-- `ContentHashFold::fold_entry_`.  A missing scalar array has no values. -/
def foldEntry (state : Nat) (op : TraceEntry) : Nat :=
  let state := combineIds state op.schemaHash
  let state := op.inputMetas.foldl (fun state tensor => combineIds state (tensorWord tensor)) state
  let state := combineIds state op.numScalarArgs
  op.scalarArgs.foldl (fun state value => combineIds state (word64 value)) state

/-- `compute_content_hash`.  A recipe is folded before the ops, and its hash is neither
zero nor the end-of-region marker. -/
def computeContentHash (ops : List TraceEntry) (recipe : Option Nat := none) : Except Fault Nat :=
  match recipe with
  | none => .ok (fmix64 (ops.foldl foldEntry goldenRatio))
  | some hash =>
    if hash = 0 ∨ hash = u64Max then .error .contract
    else .ok (fmix64 (ops.foldl foldEntry (combineIds goldenRatio hash)))

/-- The words that one op feeds to `combine_ids`. -/
def entryWords (op : TraceEntry) : List Nat :=
  op.schemaHash :: (op.inputMetas.map tensorWord ++ op.numScalarArgs :: op.scalarArgs.map word64)

/-- The words that a list of ops feeds to `combine_ids`. -/
def foldedWords (ops : List TraceEntry) : List Nat := ops.flatMap entryWords

theorem foldEntry_eq (state : Nat) (op : TraceEntry) :
    foldEntry state op = (entryWords op).foldl combineIds state := by
  simp only [foldEntry, entryWords, foldl_cons, foldl_append, foldl_map]

theorem foldl_foldEntry (state : Nat) (ops : List TraceEntry) :
    ops.foldl foldEntry state = (foldedWords ops).foldl combineIds state := by
  induction ops generalizing state with
  | nil => rfl
  | cons op ops ih =>
    rw [foldl_cons, ih, foldEntry_eq, ← foldl_append]
    rfl

theorem computeContentHash_eq (ops : List TraceEntry) :
    computeContentHash ops = .ok (fmix64 ((foldedWords ops).foldl combineIds goldenRatio)) :=
  congrArg (fun state => Except.ok (fmix64 state)) (foldl_foldEntry goldenRatio ops)

/-! ### Op lists with the same words -/

/-- The values of `int64_t`. -/
def IsInt64 (x : Int) : Prop := -(2 ^ 63) ≤ x ∧ x < 2 ^ 63

instance (x : Int) : Decidable (IsInt64 x) := inferInstanceAs (Decidable (_ ∧ _))

theorem word64_injective {x y : Int} (hx : IsInt64 x) (hy : IsInt64 y)
    (h : word64 x = word64 y) : x = y := by
  obtain ⟨hx1, hx2⟩ := hx
  obtain ⟨hy1, hy2⟩ := hy
  rw [word64, word64] at h
  omega

/-- `kMaxTensorDimExtent`. -/
def maxTensorDimExtent : Int := (2 ^ 63 - 1) / 16

/-- A descriptor that the write path of `TensorMeta` can produce. -/
structure TensorMeta.WellFormed (tensor : TensorMeta) : Prop where
  ndim_le : tensor.ndim ≤ maxTensorNDim
  sizes_int : ∀ x ∈ tensor.sizes, IsInt64 x ∧ x ≤ maxTensorDimExtent
  strides_int : ∀ x ∈ tensor.strides, IsInt64 x ∧ x ≤ maxTensorDimExtent

/-- What a schema hash allows of the ops that carry it: the numbers of inputs, and
whether the scalar array may be missing. -/
structure OpForms where
  inputs : Nat → Set Nat
  mayMissScalars : Set Nat

structure OpForms.Allows (forms : OpForms) (op : TraceEntry) : Prop where
  schema_lt : op.schemaHash < 2 ^ 64
  inputs_lt : op.inputMetas.length < 2 ^ 16
  scalars_lt : op.numScalarArgs < 2 ^ 16
  tensors : ∀ tensor ∈ op.inputMetas, tensor.WellFormed
  scalars_int : ∀ x ∈ op.scalarArgs, IsInt64 x
  inputs_mem : op.inputMetas.length ∈ forms.inputs op.schemaHash
  scalars : op.scalarArgs.length = op.numScalarArgs ∨
    op.schemaHash ∈ forms.mayMissScalars ∧ op.scalarArgs = []

/-- Two ops agree on the schema hash, on the words of their inputs and on the scalar
arguments. -/
structure AgreesWith (op op' : TraceEntry) : Prop where
  schema : op.schemaHash = op'.schemaHash
  inputs : op.inputMetas.map tensorWord = op'.inputMetas.map tensorWord
  count : op.numScalarArgs = op'.numScalarArgs
  scalars : op.scalarArgs = op'.scalarArgs

/-- The forms under which the words of an op say where it ends. -/
structure OpForms.Delimited (forms : OpForms) : Prop where
  inputs_eq : ∀ schema n m, schema < 2 ^ 64 → n < 2 ^ 16 → m < 2 ^ 16 →
    n ∈ forms.inputs schema → m ∈ forms.inputs schema → n = m
  present : ∀ schema n, schema < 2 ^ 64 → n < 2 ^ 16 →
    n ∈ forms.inputs schema → schema ∉ forms.mayMissScalars

theorem map_word64_injective {xs ys : List Int} (hxs : ∀ x ∈ xs, IsInt64 x)
    (hys : ∀ y ∈ ys, IsInt64 y) (h : xs.map word64 = ys.map word64) : xs = ys := by
  induction xs generalizing ys with
  | nil => exact (map_eq_nil_iff.mp h.symm).symm
  | cons x xs ih =>
    cases ys with
    | nil => simp at h
    | cons y ys =>
      obtain ⟨hhead, htail⟩ := cons.inj h
      rw [word64_injective (hxs x mem_cons_self) (hys y mem_cons_self) hhead,
        ih (fun z hz => hxs z (mem_cons_of_mem x hz))
          (fun z hz => hys z (mem_cons_of_mem y hz)) htail]

variable {forms : OpForms}

theorem OpForms.Delimited.split (h : forms.Delimited) {op op' : TraceEntry}
    {rest rest' : List Nat} (hop : forms.Allows op) (hop' : forms.Allows op')
    (heq : entryWords op ++ rest = entryWords op' ++ rest') :
    AgreesWith op op' ∧ rest = rest' := by
  rw [entryWords, entryWords, cons_append, cons_append, append_assoc, append_assoc] at heq
  obtain ⟨hsch, heq⟩ := cons.inj heq
  have hinp : op.inputMetas.length = op'.inputMetas.length :=
    h.inputs_eq op.schemaHash _ _ hop.schema_lt hop.inputs_lt hop'.inputs_lt hop.inputs_mem
      (hsch ▸ hop'.inputs_mem)
  obtain ⟨hten, heq⟩ := append_inj heq (by simpa using hinp)
  obtain ⟨hcount, heq⟩ := cons.inj heq
  have hlen : op.scalarArgs.length = op.numScalarArgs := by
    refine hop.scalars.resolve_right fun hmiss => ?_
    exact h.present _ _ hop.schema_lt hop.inputs_lt hop.inputs_mem hmiss.1
  have hlen' : op'.scalarArgs.length = op'.numScalarArgs := by
    refine hop'.scalars.resolve_right fun hmiss => ?_
    exact h.present _ _ hop'.schema_lt hop'.inputs_lt hop'.inputs_mem hmiss.1
  obtain ⟨hscal, hrest⟩ := append_inj heq (by simp [hlen, hlen', hcount])
  exact ⟨⟨hsch, hten, hcount, map_word64_injective hop.scalars_int hop'.scalars_int hscal⟩, hrest⟩

/-! ### Ops with given words -/

def signed64 (w : Nat) : Int := if w < 2 ^ 63 then w else w - 2 ^ 64

variable {w count schema : Nat}

theorem isInt64_signed64 (h : w < 2 ^ 64) : IsInt64 (signed64 w) := by
  rw [signed64, IsInt64]
  split <;> omega

theorem word64_signed64 (h : w < 2 ^ 64) : word64 (signed64 w) = w := by
  rw [signed64, word64]
  split <;> omega

theorem two_pow_add_xor {i a : Nat} (h : a < 2 ^ i) : (2 ^ i + a) ^^^ 2 ^ i = a := by
  have hor : 2 ^ i + a = 2 ^ i ||| a := by simpa using Nat.two_pow_add_eq_or_of_lt h 1
  apply Nat.eq_of_testBit_eq
  intro j
  rw [hor, Nat.testBit_xor, Nat.testBit_or, Nat.testBit_two_pow]
  by_cases hj : i = j
  · subst hj
    simp [Nat.testBit_lt_two_pow h]
  · simp [hj]

theorem wrap64_add_xor (h : w < 2 ^ 64) : wrap64 (w + 2 ^ 63) ^^^ 2 ^ 63 = w := by
  by_cases hlt : w < 2 ^ 63
  · rw [wrap64_of_lt (by omega), add_comm]
    exact two_pow_add_xor hlt
  · obtain ⟨a, rfl⟩ := Nat.exists_eq_add_of_le (Nat.le_of_not_lt hlt)
    have hwrap : wrap64 (2 ^ 63 + a + 2 ^ 63) = a := by
      rw [wrap64]
      omega
    have ha : a < 2 ^ 63 := by omega
    calc wrap64 (2 ^ 63 + a + 2 ^ 63) ^^^ 2 ^ 63
        = ((2 ^ 63 + a) ^^^ 2 ^ 63) ^^^ 2 ^ 63 := by rw [hwrap, two_pow_add_xor ha]
      _ = 2 ^ 63 + a := by rw [Nat.xor_assoc, Nat.xor_self, Nat.xor_zero]

/-- The inverse of the first lane constant. -/
def dimMixInverse : Nat := 0xf1de83e19937733d

/-- A tensor of one dimension with a given word.  The size is negative, so that it stays
below the bound of the write path, and a stride makes up for the top bit. -/
def TensorMeta.ofWord (w : Nat) : TensorMeta :=
  let size := wrap64 (w * dimMixInverse)
  { sizes := [if size < 2 ^ 63 then size - 2 ^ 63 else size - 2 ^ 64]
    strides := [if size < 2 ^ 63 then -(2 ^ 63) else 0]
    ndim := 1
    dtype := .byte
    deviceIdx := 0 }

theorem TensorMeta.ofWord_wellFormed (w : Nat) : (TensorMeta.ofWord w).WellFormed := by
  have hlt := wrap64_lt (w * dimMixInverse)
  refine ⟨(by decide : 1 ≤ maxTensorNDim), ?_, ?_⟩ <;>
    rw [TensorMeta.ofWord, forall_mem_singleton, IsInt64, maxTensorDimExtent] <;>
    split <;> omega

theorem tensorWord_one {tensor : TensorMeta} {size stride : Int} (hsiz : tensor.sizes = [size])
    (hstr : tensor.strides = [stride]) (hndim : tensor.ndim = 1)
    (hdty : tensor.dtype = .byte) (hdev : tensor.deviceType = .cpu)
    (hidx : tensor.deviceIdx = 0) :
    tensorWord tensor = wrap64 (word64 size * dimMix 0) ^^^ wrap64 (word64 stride * dimMix 8) := by
  have hpac : metaPacked tensor = 0 := by
    rw [metaPacked, hdty, hdev, hidx]
    decide
  have hlane : dimHashSimd tensor = dimLane tensor 0 := by
    have hran : range (min 1 maxTensorNDim) = [0] := rfl
    rw [dimHashSimd, hndim, hran, foldl_cons, foldl_nil, Nat.zero_xor]
  rw [tensorWord, hpac, hlane, dimLane, hsiz, hstr, Nat.xor_zero,
    getD_cons_zero, getD_cons_zero]

theorem sizeWord_flip {size : Nat} (hmix : wrap64 (size * dimMix 0) = w) (hlt : size < 2 ^ 63) :
    wrap64 (word64 ((size : Int) - 2 ^ 63) * dimMix 0) = wrap64 (w + 2 ^ 63) := by
  have hword : word64 ((size : Int) - 2 ^ 63) = size + 2 ^ 63 := by
    rw [word64]
    omega
  have htop : 2 ^ 63 * dimMix 0 % 2 ^ 64 = 2 ^ 63 := by decide
  rw [wrap64] at hmix
  rw [hword, add_mul, wrap64, wrap64, Nat.add_mod, hmix, htop]

theorem tensorWord_ofWord (h : w < 2 ^ 64) : tensorWord (TensorMeta.ofWord w) = w := by
  have hmix : wrap64 (wrap64 (w * dimMixInverse) * dimMix 0) = w :=
    wrap64_mul_inverse h (by decide)
  have hlt := wrap64_lt (w * dimMixInverse)
  rw [tensorWord_one rfl rfl rfl rfl rfl rfl]
  generalize wrap64 (w * dimMixInverse) = size at hmix hlt ⊢
  by_cases hsmall : size < 2 ^ 63
  · have hstr : wrap64 (word64 (-(2 ^ 63)) * dimMix 8) = 2 ^ 63 := by decide
    rw [if_pos hsmall, if_pos hsmall, sizeWord_flip hmix hsmall, hstr, wrap64_add_xor h]
  · have hword : word64 ((size : Int) - 2 ^ 64) = size := by
      rw [word64]
      omega
    have hstr : wrap64 (word64 0 * dimMix 8) = 0 := by decide
    rw [if_neg hsmall, if_neg hsmall, hword, hmix, hstr, Nat.xor_zero]

def TraceEntry.ofWords (schema : Nat) (words : List Nat) (count : Nat) (scalars : List Int) :
    TraceEntry :=
  { schemaHash := schema
    shapeHash := 0
    scopeHash := 0
    callsiteHash := 0
    inputMetas := words.map TensorMeta.ofWord
    outputMetas := []
    scalarArgs := scalars
    numScalarArgs := count
    gradEnabled := false
    inferenceMode := false
    isMutable := false
    trainingPhase := .forward
    torchFunction := false
    inputTraceIndices := words.map fun _ => none
    inputSlotIds := words.map fun _ => u32Max
    outputSlotIds := [] }

theorem OpForms.ofWords_spec {n : Nat} (words : List Nat) (count : Nat) (scalars : List Nat)
    (hsch : schema < 2 ^ 64) (hlt : ∀ w ∈ words ++ scalars, w < 2 ^ 64) (hlen : words.length = n) (hn : n < 2 ^ 16)
    (hcount : count < 2 ^ 16) (hmem : n ∈ forms.inputs schema)
    (hscal : scalars.length = count ∨ schema ∈ forms.mayMissScalars ∧ scalars = []) :
    forms.Allows (.ofWords schema words count (scalars.map signed64)) ∧
      entryWords (.ofWords schema words count (scalars.map signed64)) =
        schema :: (words ++ count :: scalars) := by
  subst hlen
  rw [forall_mem_append] at hlt
  refine ⟨⟨hsch, by simpa [TraceEntry.ofWords] using hn, hcount, ?_, ?_,
    by simpa [TraceEntry.ofWords] using hmem, by simpa [TraceEntry.ofWords] using hscal⟩, ?_⟩
  · exact forall_mem_map.mpr fun w _ => TensorMeta.ofWord_wellFormed w
  · exact forall_mem_map.mpr fun w hw => isInt64_signed64 (hlt.2 w hw)
  · have hback : ∀ {α : Type} {f : Nat → α} {g : α → Nat} {ws : List Nat},
        (∀ w ∈ ws, g (f w) = w) → (ws.map f).map g = ws := by
      intro α f g ws h
      rw [map_map]
      exact (map_congr_left h).trans (map_id ws)
    show schema :: ((words.map TensorMeta.ofWord).map tensorWord ++
      count :: (scalars.map signed64).map word64) = _
    rw [hback fun w hw => tensorWord_ofWord (hlt.1 w hw),
      hback fun w hw => word64_signed64 (hlt.2 w hw)]

/-! ### Where the words are ambiguous -/

/-- Equal words mean ops that agree, one by one. -/
def OpForms.Decodable (forms : OpForms) : Prop :=
  ∀ ops ops' : List TraceEntry, (∀ op ∈ ops, forms.Allows op) → (∀ op ∈ ops', forms.Allows op) →
    foldedWords ops = foldedWords ops' → Forall₂ AgreesWith ops ops'

theorem OpForms.Delimited.decodable (h : forms.Delimited) : forms.Decodable := by
  intro ops ops' hops hops' heq
  refine flatMap_forall₂ (fun op => cons_ne_nil _ _) ?_ hops hops' heq
  intro op op' rest rest' hop hop' hwor
  exact h.split hop hop' hwor

theorem OpForms.Decodable.not_longer (h : forms.Decodable)
    {n k : Nat} (hsch : schema < 2 ^ 64) (hlt : n + (k + 1) < 2 ^ 16)
    (hn : n ∈ forms.inputs schema) (hk : n + (k + 1) ∈ forms.inputs schema) : False := by
  obtain ⟨hshort, hwords⟩ := forms.ofWords_spec (replicate n 0) (k + 1) (replicate (k + 1) 0)
    hsch (fun w hw => by simp at hw; omega) (by simp) (by omega) (by omega) hn (.inl (by simp))
  obtain ⟨hlong, hwords'⟩ := forms.ofWords_spec (replicate n 0 ++ (k + 1) :: replicate k 0) 0 []
    hsch (fun w hw => by simp at hw; omega) (by simp) hlt (by decide) hk (.inl rfl)
  have hagr := h _ _ (forall_mem_singleton.mpr hshort) (forall_mem_singleton.mpr hlong) <| by
    simp only [foldedWords, flatMap_cons, flatMap_nil, hwords, hwords']
    simp [replicate_succ']
  cases hagr with
  | cons hop _ => exact absurd hop.count (Nat.succ_ne_zero k)

/-- A scalar array that may be missing from an op without inputs: its values read as the
next op. -/
theorem OpForms.Decodable.not_missing_zero (h : forms.Decodable) (hsch : schema < 2 ^ 64)
    (hmem : 0 ∈ forms.inputs schema)
    (hmiss : schema ∈ forms.mayMissScalars) : False := by
  obtain ⟨hwhole, hwords⟩ := forms.ofWords_spec [] 2 [schema, 0] hsch
    (fun w hw => by simp at hw; omega) rfl (by decide) (by decide) hmem (.inl rfl)
  obtain ⟨hmis, hwords'⟩ := forms.ofWords_spec [] 2 [] hsch (by simp) rfl (by decide) (by decide)
    hmem (.inr ⟨hmiss, rfl⟩)
  obtain ⟨hbare, hnext⟩ := forms.ofWords_spec [] 0 [] hsch (by simp) rfl (by decide) (by decide)
    hmem (.inl rfl)
  have hagr := h _ _ (forall_mem_singleton.mpr hwhole)
    (forall_mem_cons.mpr ⟨hmis, forall_mem_singleton.mpr hbare⟩) <| by
      simp only [foldedWords, flatMap_cons, flatMap_nil, hwords, hwords', hnext]
      rfl
  cases hagr with
  | cons _ htail => cases htail

/-- A scalar array that may be missing from an op with inputs: its values and the start of
the next op read as an op whose last input has the word of the schema. -/
theorem OpForms.Decodable.not_missing_succ (h : forms.Decodable)
    {m : Nat} (hsch : schema < 2 ^ 64) (hlt : m + 1 < 2 ^ 16)
    (hmem : m + 1 ∈ forms.inputs schema) (hmiss : schema ∈ forms.mayMissScalars) : False := by
  obtain ⟨hwhole, hwords⟩ := forms.ofWords_spec (replicate (m + 1) 0) (m + 1)
    (schema :: replicate m 0) hsch (fun w hw => by simp at hw; omega) (by simp) hlt hlt hmem
    (.inl (by simp))
  obtain ⟨hnext, hnextW⟩ := forms.ofWords_spec ((m + 1) :: replicate m 0) 0 [] hsch
    (fun w hw => by simp at hw; omega) (by simp) hlt (by decide) hmem (.inl rfl)
  obtain ⟨hmis, hwords'⟩ := forms.ofWords_spec (replicate (m + 1) 0) (m + 1) [] hsch
    (fun w hw => by simp at hw; omega) (by simp) hlt hlt hmem (.inr ⟨hmiss, rfl⟩)
  obtain ⟨hshif, hshifW⟩ := forms.ofWords_spec (replicate m 0 ++ [schema]) (m + 1)
    (replicate (m + 1) 0) hsch (fun w hw => by simp at hw; omega) (by simp) hlt hlt hmem
    (.inl (by simp))
  have hagr := h _ _ (forall_mem_cons.mpr ⟨hwhole, forall_mem_singleton.mpr hnext⟩)
    (forall_mem_cons.mpr ⟨hmis, forall_mem_singleton.mpr hshif⟩) <| by
      simp only [foldedWords, flatMap_cons, flatMap_nil, hwords, hnextW, hwords', hshifW]
      simp [replicate_succ']
  cases hagr with
  | cons hop _ => exact absurd hop.scalars (cons_ne_nil _ _)

theorem OpForms.Decodable.delimited (h : forms.Decodable) : forms.Delimited where
  inputs_eq := by
    intro schema n m hsch hn hm hnmem hmmem
    rcases lt_trichotomy n m with hlt | heq | hgt
    · obtain ⟨k, rfl⟩ : ∃ k, m = n + (k + 1) := Nat.exists_eq_add_of_lt hlt
      exact (h.not_longer hsch hm hnmem hmmem).elim
    · exact heq
    · obtain ⟨k, rfl⟩ : ∃ k, n = m + (k + 1) := Nat.exists_eq_add_of_lt hgt
      exact (h.not_longer hsch hn hmmem hnmem).elim
  present := by
    intro schema n hsch hn hmem hmiss
    cases n with
    | zero => exact h.not_missing_zero hsch hmem hmiss
    | succ m => exact h.not_missing_succ hsch hn hmem hmiss

/-- **When the folded words determine the ops.**  Whatever forms the ops of each schema
may take, equal words mean ops that agree one by one exactly when the schema hash
determines the number of inputs and no op misses its scalar array. -/
theorem foldedWords_decodable_iff (forms : OpForms) : (∀ ops ops' : List TraceEntry,
      (∀ op ∈ ops, forms.Allows op) → (∀ op ∈ ops', forms.Allows op) →
      foldedWords ops = foldedWords ops' → Forall₂ AgreesWith ops ops') ↔
    forms.Delimited :=
  ⟨OpForms.Decodable.delimited, OpForms.Delimited.decodable⟩

/-- An op with one input, a tensor of no dimension whose word is one. -/
def charOp : TraceEntry :=
  { TraceEntry.ofWords 42 [] 0 [] with
    inputMetas := [{ dtype := .char, deviceIdx := 0 }]
    inputTraceIndices := [none]
    inputSlotIds := [u32Max] }

/-- An op of the same schema without inputs and with the scalar zero. -/
def scalarOp : TraceEntry := .ofWords 42 [] 1 [0]

/-- The word of an input reads as a scalar count: two different ops have the same words
and the same content hash. -/
theorem tensor_reads_as_count :
    foldedWords [charOp] = [42, 1, 0] ∧ foldedWords [scalarOp] = [42, 1, 0] ∧
      computeContentHash [charOp] = computeContentHash [scalarOp] ∧
      charOp.inputMetas.length = 1 ∧ scalarOp.inputMetas.length = 0 ∧
      charOp.scalarArgs = [] ∧ scalarOp.scalarArgs = [0] := by
  have hchar : foldedWords [charOp] = [42, 1, 0] := by decide
  have hscalar : foldedWords [scalarOp] = [42, 1, 0] := by decide
  refine ⟨hchar, hscalar, ?_, rfl, rfl, rfl, rfl⟩
  rw [computeContentHash_eq, computeContentHash_eq, hchar, hscalar]

/-! ### Extents and strides that cancel -/

def dimHashScalar (tensor : TensorMeta) : Nat :=
  (range tensor.ndim).foldl (fun result d =>
    result ^^^ wrap64 (word64 (tensor.sizes.getD d 0) * dimMix d) ^^^
      wrap64 (word64 (tensor.strides.getD d 0) * dimMix (d + 8))) 0

theorem wrap64_mul_dimMix {x : Int} (i : Nat) (hx : 1 ≤ x ∧ x ≤ maxTensorDimExtent) :
    wrap64 (word64 x * dimMix i) = wrap64 (x.toNat * (i + 1) * goldenRatio) := by
  obtain ⟨hpos, hmax⟩ := hx
  rw [maxTensorDimExtent] at hmax
  have hword : word64 x = x.toNat := by
    rw [word64]
    omega
  have hmix : x.toNat * dimMix i ≡ x.toNat * (goldenRatio * (i + 1)) [MOD 2 ^ 64] :=
    Nat.ModEq.mul_left _ (Nat.mod_modEq _ _)
  rw [hword, mul_assoc, mul_comm (i + 1)]
  exact hmix

theorem dimTerms_eq_iff {size stride : Int} {d : Nat} (hd : d < 8)
    (hsize : 1 ≤ size ∧ size ≤ maxTensorDimExtent)
    (hstr : 1 ≤ stride ∧ stride ≤ maxTensorDimExtent) :
    wrap64 (word64 size * dimMix d) = wrap64 (word64 stride * dimMix (d + 8)) ↔
      (d + 1) * size = (d + 9) * stride := by
  rw [wrap64_mul_dimMix d hsize, wrap64_mul_dimMix (d + 8) hstr]
  obtain ⟨hpos, hmax⟩ := hsize
  obtain ⟨hpos', hmax'⟩ := hstr
  rw [maxTensorDimExtent] at hmax hmax'
  obtain ⟨n, rfl⟩ := Int.eq_ofNat_of_zero_le (by omega : 0 ≤ size)
  obtain ⟨m, rfl⟩ := Int.eq_ofNat_of_zero_le (by omega : 0 ≤ stride)
  have hn : n * (d + 1) ≤ n * 8 := Nat.mul_le_mul_left n (by omega)
  have hm : m * (d + 8 + 1) ≤ m * 16 := Nat.mul_le_mul_left m (by omega)
  have hunit : wrap64 (goldenRatio * dimMixInverse) = 1 := by decide
  rw [Int.toNat_natCast, Int.toNat_natCast]
  constructor
  · intro heq
    have hback := congrArg (fun w => wrap64 (w * dimMixInverse)) heq
    simp only [wrap64_mul_inverse (show n * (d + 1) < 2 ^ 64 by omega) hunit,
      wrap64_mul_inverse (show m * (d + 8 + 1) < 2 ^ 64 by omega) hunit] at hback
    rw [mul_comm, mul_comm (_ + 9)]
    exact_mod_cast hback
  · intro heq
    have hnat : n * (d + 1) = m * (d + 8 + 1) := by
      rw [mul_comm, mul_comm m]
      exact_mod_cast heq
    rw [hnat]

/-- **When an extent and a stride cancel.**  The two terms of a dimension are equal at one
ratio of the extent to the stride, and a tensor of one dimension has the hash of a tensor of
none at that ratio. -/
theorem dimTerms_apart_iff (size stride : Int) (hsize : 1 ≤ size ∧ size ≤ maxTensorDimExtent)
    (hstride : 1 ≤ stride ∧ stride ≤ maxTensorDimExtent) :
    (∀ d < 8, wrap64 (word64 size * dimMix d) ^^^ wrap64 (word64 stride * dimMix (d + 8)) ≠ 0 ↔
      (d + 1) * size ≠ (d + 9) * stride) ∧
    ∀ tensor scalar : TensorMeta, tensor.ndim = 1 → tensor.sizes = [size] →
      tensor.strides = [stride] → scalar.ndim = 0 → tensor.dtype = scalar.dtype →
      tensor.deviceType = scalar.deviceType → tensor.deviceIdx = scalar.deviceIdx →
      (dimHashScalar tensor ≠ dimHashScalar scalar ↔ size ≠ 9 * stride) ∧
      (tensorWord tensor ≠ tensorWord scalar ↔ size ≠ 9 * stride) := by
  refine ⟨fun d hd => not_congr (Nat.xor_eq_zero_iff.trans (dimTerms_eq_iff hd hsize hstride)), ?_⟩
  intro tensor scalar hndim hsizes hstrides hnone hdtype hdevice hidx
  have hlane : dimHashScalar tensor = dimLane tensor 0 ∧ dimHashSimd tensor = dimLane tensor 0 := by
    have hrange : range 1 = [0] ∧ range (min 1 maxTensorNDim) = [0] := ⟨rfl, rfl⟩
    rw [dimHashScalar, dimHashSimd, hndim, hrange.1, hrange.2, foldl_cons, foldl_nil, foldl_cons,
      foldl_nil, Nat.zero_xor, Nat.zero_xor]
    exact ⟨rfl, rfl⟩
  have hzero : dimHashScalar scalar = 0 ∧ dimHashSimd scalar = 0 := by
    rw [dimHashScalar, dimHashSimd, hnone]
    exact ⟨rfl, rfl⟩
  have hpacked : metaPacked tensor = metaPacked scalar := by
    rw [metaPacked, metaPacked, hdtype, hdevice, hidx]
  have hterms : dimLane tensor 0 ≠ 0 ↔ size ≠ 9 * stride := by
    rw [dimLane, hsizes, hstrides, getD_cons_zero, getD_cons_zero, Ne, Nat.xor_eq_zero_iff,
      dimTerms_eq_iff (by decide) hsize hstride, Int.natCast_zero, zero_add, zero_add, one_mul]
  rw [hlane.1, hzero.1, tensorWord, tensorWord, hlane.2, hzero.2, hpacked]
  exact ⟨hterms, (not_congr Nat.xor_left_inj).trans hterms⟩

def floatVector (size stride : Int) : TensorMeta :=
  { sizes := [size], strides := [stride], ndim := 1, dtype := .float, deviceIdx := 0 }

theorem dimTerms_apart_contiguous :
    dimHashScalar (floatVector 8 1) ≠ dimHashScalar { dtype := .float, deviceIdx := 0 } := by
  have happart := (dimTerms_apart_iff 8 1 (by decide) (by decide)).2
    (floatVector 8 1) { dtype := .float, deviceIdx := 0 } rfl rfl rfl rfl rfl rfl rfl
  exact happart.1.mpr (by decide)

/-- A vector of nine elements hashes like a scalar: nine times the first constant is the
constant of the first stride. -/
theorem nine_elements_cancel : wrap64 (word64 9 * dimMix 0) ^^^ wrap64 (word64 1 * dimMix 8) = 0 ∧
      dimHashScalar (floatVector 9 1) = dimHashScalar { dtype := .float, deviceIdx := 0 } := by
  decide

end Crucible
