import Crucible.SweepTiling

/-! # The plan is free of overlaps

The whole sweep, op by op: before each op the slots that are live or that died at
the op before tile the pool.  A slot's offset is written at its birth op only, so
the tiling of each op is read off the finished plan.
-/
namespace Crucible
open List CountingSort

/-- The slots that `compute_memory_plan` accepts. -/
def PlanAccepts (slots : List TensorSlot) : Prop :=
  ∀ slot ∈ slots, slot.isExternal = false → slot.LifetimeOk

instance (slots : List TensorSlot) : Decidable (PlanAccepts slots) :=
  inferInstanceAs (Decidable (∀ slot ∈ slots, slot.isExternal = false → slot.LifetimeOk))

def InternalAt (slots : List TensorSlot) (s : Nat) : Prop :=
  s < slots.length ∧ (slotAt slots s).isExternal = false

instance (slots : List TensorSlot) (s : Nat) : Decidable (InternalAt slots s) :=
  inferInstanceAs (Decidable (_ ∧ _))

section Buckets
variable {slots : List TensorSlot} {numOps op s : Nat}

theorem bornAt_eq (slots : List TensorSlot) (op : Nat) :
    bornAt slots op = bucket (birthKey slots) (range slots.length) op :=
  slice_scatter ..

theorem dyingAt_eq (slots : List TensorSlot) (numOps op : Nat) : dyingAt slots numOps op =
      bucket (deathKey slots numOps) (range slots.length) op :=
  slice_scatter ..

theorem mem_bornAt : s ∈ bornAt slots op ↔ InternalAt slots s ∧ (slotAt slots s).birthOp = op := by
  rw [bornAt_eq, mem_bucket, birthKey, InternalAt]
  cases (slotAt slots s).isExternal <;> simp

theorem mem_dyingAt : s ∈ dyingAt slots numOps op ↔
    InternalAt slots s ∧ (slotAt slots s).deathOp + 1 = op ∧ op < numOps := by
  rw [dyingAt_eq, mem_bucket, mem_range, deathKey, InternalAt, and_assoc]
  refine and_congr_right fun _ => ?_
  cases (slotAt slots s).isExternal with
  | true => simp
  | false =>
    by_cases h : (slotAt slots s).deathOp + 1 < numOps
    · simp only [Bool.false_eq_true, if_false, if_pos h, Option.some.injEq, true_and]
      omega
    · simp only [Bool.false_eq_true, if_false, if_neg h, true_and]
      constructor
      · intro hn
        cases hn
      · omega

/-- The slots that hold a block before op `t`. -/
def heldBefore (slots : List TensorSlot) (t : Nat) : Set Nat :=
  {s | InternalAt slots s ∧ (slotAt slots s).birthOp < t ∧ t ≤ (slotAt slots s).deathOp + 1}

/-- The slots that are live across op `t`. -/
def stayingAt (slots : List TensorSlot) (t : Nat) : Set Nat :=
  {s | InternalAt slots s ∧ (slotAt slots s).birthOp < t ∧ t ≤ (slotAt slots s).deathOp}

variable (hlife : ∀ s, InternalAt slots s → (slotAt slots s).LifetimeOk)
include hlife

theorem mem_heldBefore (hlt : op < numOps) :
    s ∈ heldBefore slots op ↔ s ∈ stayingAt slots op ∨ s ∈ dyingAt slots numOps op := by
  rw [mem_dyingAt]
  constructor
  · rintro ⟨hint, hbir, hdeath⟩
    by_cases hlive : op ≤ (slotAt slots s).deathOp
    · exact .inl ⟨hint, hbir, hlive⟩
    · exact .inr ⟨hint, by omega, hlt⟩
  · rintro (⟨hint, hbir, hdeath⟩ | ⟨hint, hdeath, -⟩)
    · exact ⟨hint, hbir, by omega⟩
    · have := (hlife s hint).1
      exact ⟨hint, by omega, by omega⟩

theorem mem_heldBefore_succ :
    s ∈ heldBefore slots (op + 1) ↔ s ∈ stayingAt slots op ∨ s ∈ bornAt slots op := by
  rw [mem_bornAt]
  constructor
  · rintro ⟨hint, hbir, hdeath⟩
    by_cases hborn : (slotAt slots s).birthOp = op
    · exact .inr ⟨hint, hborn⟩
    · exact .inl ⟨hint, by omega, by omega⟩
  · rintro (⟨hint, hbir, hdeath⟩ | ⟨hint, hbir⟩)
    · exact ⟨hint, by omega, by omega⟩
    · have := (hlife s hint).1
      exact ⟨hint, by omega, by omega⟩

theorem opLists : OpLists (stayingAt slots op) (dyingAt slots numOps op) (bornAt slots op) where
  dying_nodup := by
    rw [dyingAt_eq]
    exact nodup_range.filter _
  born_nodup := by
    rw [bornAt_eq]
    exact nodup_range.filter _
  dying_born := by
    intro s hd hb
    obtain ⟨hint, hdeath, -⟩ := mem_dyingAt.mp hd
    have := (hlife s hint).1
    have := (mem_bornAt.mp hb).2
    omega
  stay_dying := by
    intro s hs hd
    have := hs.2.2
    have := (mem_dyingAt.mp hd).2.1
    omega
  stay_born := by
    intro s hs hb
    have := hs.2.1
    have := (mem_bornAt.mp hb).2
    omega

end Buckets

section Run
variable {slots : List TensorSlot} {numOps : Nat} {size : Nat → Nat}

theorem sweepTo_succ (wrap size : Nat → Nat) (slots : List TensorSlot) (numOps t : Nat) :
    sweepTo wrap size slots numOps (t + 1) =
      sweepOp wrap size (dyingAt slots numOps t) (bornAt slots t)
        (sweepTo wrap size slots numOps t) := by
  simp only [sweepTo, range_succ, foldl_append, foldl_cons, foldl_nil]

variable {t u s : Nat}

theorem sweepTo_offset_succ (wrap : Nat → Nat)
    (hs : InternalAt slots s → (slotAt slots s).birthOp ≠ t) :
    (sweepTo wrap size slots numOps (t + 1)).offset s =
      (sweepTo wrap size slots numOps t).offset s := by
  rw [sweepTo_succ]
  refine sweepOp_offset wrap fun hb => ?_
  obtain ⟨hint, hbir⟩ := mem_bornAt.mp hb
  exact hs hint hbir

theorem sweepTo_offset_internal (wrap : Nat → Nat)
    (hbir : (slotAt slots s).birthOp < t) (htu : t ≤ u) :
    (sweepTo wrap size slots numOps u).offset s = (sweepTo wrap size slots numOps t).offset s := by
  induction u, htu using Nat.le_induction with
  | base => rfl
  | succ u hu ih => rw [sweepTo_offset_succ wrap fun _ => by omega, ih]

theorem sweepTo_offset_external (wrap : Nat → Nat) (hs : ¬ InternalAt slots s) (t : Nat) :
    (sweepTo wrap size slots numOps t).offset s = (slotAt slots s).offsetBytes := by
  induction t with
  | zero => rfl
  | succ t ih => rw [sweepTo_offset_succ wrap fun h => absurd h hs, ih]

theorem sweepTo_congr {size' : Nat → Nat} (wrap : Nat → Nat)
    (h : ∀ s, InternalAt slots s → size s = size' s) (t : Nat) :
    sweepTo wrap size slots numOps t = sweepTo wrap size' slots numOps t := by
  induction t with
  | zero => rfl
  | succ t ih =>
    rw [sweepTo_succ, sweepTo_succ, ih]
    exact sweepOp_congr wrap (fun s hs => h s (mem_dyingAt.mp hs).1)
      (fun s hs => h s (mem_bornAt.mp hs).1)

/-- The sizes of the internal slots born before `t`. -/
def placedBytes (size : Nat → Nat) (slots : List TensorSlot) (t : Nat) : Nat :=
  ((range slots.length).map fun s =>
    if (slotAt slots s).isExternal = false ∧ (slotAt slots s).birthOp < t then size s else 0).sum

theorem placedBytes_succ (size : Nat → Nat) (slots : List TensorSlot) (t : Nat) :
    placedBytes size slots (t + 1) =
      placedBytes size slots t + ((bornAt slots t).map size).sum := by
  rw [bornAt_eq, sum_map_bucket, placedBytes, placedBytes, ← sum_map_add]
  refine congrArg sum (map_congr_left fun s _ => ?_)
  unfold birthKey
  cases (slotAt slots s).isExternal with
  | true => simp
  | false =>
    rcases lt_trichotomy (slotAt slots s).birthOp t with h | h | h
    · simp [h, h.ne, Nat.lt_succ_of_lt h]
    · simp [h]
    · simp [Nat.not_lt_of_gt h, Nat.ne_of_gt h, show ¬ (slotAt slots s).birthOp < t + 1 by omega]

variable (hlife : ∀ s, InternalAt slots s → (slotAt slots s).LifetimeOk)
  (hdvd : ∀ s, alignment ∣ size s)
include hlife hdvd

/-- **The tiling at every op**: before op `t` the slots that hold a block tile the pool. -/
theorem sweepTo_tiled (ht : t ≤ numOps) :
    (sweepTo id size slots numOps t).Tiled size (heldBefore slots t) := by
  induction t with
  | zero =>
    refine ⟨(Tiling.empty alignment _).forget fun s hs => ?_, Nat.dvd_zero _⟩
    exact absurd hs.2.1 (Nat.not_lt_zero _)
  | succ t ih =>
    rw [sweepTo_succ]
    have hbef := (ih (by omega)).forget
      fun s => (mem_heldBefore hlife (show t < numOps by omega)).mpr
    exact (sweepOp_tiled (opLists hlife) hdvd hbef).forget
      fun s => (mem_heldBefore_succ hlife).mp

theorem sweepTo_poolEnd_succ (ht : t < numOps) :
    (sweepTo id size slots numOps t).poolEnd ≤ (sweepTo id size slots numOps (t + 1)).poolEnd ∧
      (sweepTo id size slots numOps (t + 1)).poolEnd ≤
        (sweepTo id size slots numOps t).poolEnd + ((bornAt slots t).map size).sum := by
  rw [sweepTo_succ]
  exact sweepOp_poolEnd (opLists hlife) hdvd <| (sweepTo_tiled hlife hdvd ht.le).forget
    fun s => (mem_heldBefore hlife ht).mpr

theorem sweepTo_poolEnd_mono (htu : t ≤ u) (hu : u ≤ numOps) :
    (sweepTo id size slots numOps t).poolEnd ≤ (sweepTo id size slots numOps u).poolEnd := by
  induction u, htu using Nat.le_induction with
  | base => exact le_rfl
  | succ u _ ih =>
    exact le_trans (ih (by omega)) (sweepTo_poolEnd_succ hlife hdvd (by omega)).1

/-- **While the unbounded sweep stays inside the word, the code's sweep is that sweep.** -/
theorem sweepTo_wrap (ht : t ≤ numOps) (hend : (sweepTo id size slots numOps t).poolEnd < 2 ^ 64) :
    sweepTo wrap64 size slots numOps t = sweepTo id size slots numOps t := by
  induction t with
  | zero => rfl
  | succ t ih =>
    have hmono := sweepTo_poolEnd_mono hlife hdvd (Nat.le_succ t) ht
    have hprev := ih (by omega) (hmono.trans_lt hend)
    rw [sweepTo_succ] at hend
    rw [sweepTo_succ, sweepTo_succ, hprev]
    exact sweepOp_wrap (opLists hlife) hdvd ((sweepTo_tiled hlife hdvd (by omega)).forget
      fun s => (mem_heldBefore hlife (show t < numOps by omega)).mpr) hend

theorem sweepTo_poolEnd_le (ht : t ≤ numOps) :
    (sweepTo id size slots numOps t).poolEnd ≤ placedBytes size slots t := by
  induction t with
  | zero => exact zero_le
  | succ t ih =>
    have hstep := (sweepTo_poolEnd_succ hlife hdvd (show t < numOps by omega)).2
    rw [placedBytes_succ]
    omega

end Run

section Plan
variable {slots : List TensorSlot}

variable {s : Nat}

theorem slotAt_mem (hs : s < slots.length) : slotAt slots s ∈ slots := by
  simp [slotAt, hs]

theorem PlanAccepts.lifetimes (h : PlanAccepts slots) (s : Nat) (hs : InternalAt slots s) :
    (slotAt slots s).LifetimeOk := h _ (slotAt_mem hs.1) hs.2

abbrev finalSweep (wrap : Nat → Nat) (slots : List TensorSlot) (numOps : Nat) : Sweep :=
  sweepTo wrap (slotSize wrap slots) slots numOps numOps

/-- The first pass stops at a slot whose lifetime fails its check, and otherwise
counts the external slots and bounds the deaths. -/
theorem scan_spec {acc scan : PlanScan} (h : slots.foldlM scanSlot acc = some scan) :
    acc.maxOp ≤ scan.maxOp ∧
      scan.numExternal = acc.numExternal + slots.countP (fun slot => slot.isExternal) ∧
      ∀ slot ∈ slots, slot.isExternal = false →
        slot.LifetimeOk ∧ slot.deathOp + 1 ≤ scan.maxOp := by
  induction slots generalizing acc with
  | nil =>
    obtain rfl : acc = scan := by simpa using h
    simp
  | cons slot slots ih =>
    obtain ⟨next, hnext, hrest⟩ := Option.bind_eq_some_iff.mp h
    obtain ⟨hmax, hcount, hall⟩ := ih hrest
    unfold scanSlot at hnext
    cases hext : slot.isExternal with
    | true =>
      obtain rfl : { acc with numExternal := acc.numExternal + 1 } = next := by
        simpa [hext] using hnext
      refine ⟨hmax, ?_, ?_⟩
      · rw [hcount, countP_cons_of_pos hext]
        exact (add_right_comm ..).trans (add_assoc ..)
      · exact forall_mem_cons.mpr
          ⟨fun hint => absurd (hint.symm.trans hext) Bool.false_ne_true, hall⟩
    | false =>
      by_cases hok : slot.LifetimeOk
      · simp only [hext, Bool.false_eq_true, if_false, if_pos hok, Option.some.injEq] at hnext
        subst hnext
        have hgrow : acc.maxOp ≤ scan.maxOp ∧ slot.deathOp + 1 ≤ scan.maxOp := by
          simp only at hmax
          split at hmax <;> omega
        refine ⟨hgrow.1, ?_, ?_⟩
        · rw [hcount, countP_cons_of_neg (by simp [hext])]
        · exact forall_mem_cons.mpr ⟨fun _ => ⟨hok, hgrow.2⟩, hall⟩
      · simp [hext, hok] at hnext

theorem scan_of_accepts (h : PlanAccepts slots) (acc : PlanScan) :
    ∃ scan, slots.foldlM scanSlot acc = some scan := by
  induction slots generalizing acc with
  | nil => exact ⟨acc, rfl⟩
  | cons slot slots ih =>
    have hrest : PlanAccepts slots := fun other hoth => h other (mem_cons_of_mem _ hoth)
    have hstep : ∃ next, scanSlot acc slot = some next := by
      unfold scanSlot
      cases hext : slot.isExternal with
      | true => simp
      | false => simp [h slot mem_cons_self hext]
    obtain ⟨next, hnext⟩ := hstep
    obtain ⟨scan, hscan⟩ := ih hrest next
    exact ⟨scan, by rw [foldlM_cons, hnext]; exact hscan⟩

theorem scan_none {scan : PlanScan} (hscan : slots.foldlM scanSlot {} = some scan)
    (hnone : slots.length - scan.numExternal = 0) (s : Nat) : ¬ InternalAt slots s := by
  obtain ⟨-, hcount, -⟩ := scan_spec hscan
  have hle := countP_le_length (p := fun slot : TensorSlot => slot.isExternal) (l := slots)
  have hzero : scan.numExternal = slots.countP (fun slot => slot.isExternal) := by
    rw [hcount]
    exact zero_add _
  have hfull : slots.countP (fun slot => slot.isExternal) = slots.length := by omega
  rintro ⟨hlt, hint⟩
  exact nomatch hint.symm.trans (countP_eq_length.mp hfull _ (slotAt_mem hlt))

theorem planned_of_accepts (owner : PlanOwner) (h : PlanAccepts slots) :
    ∃ plan, computeMemoryPlan owner slots = some plan := by
  obtain ⟨scan, hscan⟩ := scan_of_accepts h {}
  unfold computeMemoryPlan planWith
  rw [hscan]
  simp only [Option.bind_eq_bind, Option.bind_some]
  split <;> exact ⟨_, rfl⟩

/-- The two ways a plan comes about: nothing to place, or a whole sweep. -/
theorem planWith_cases {wrap : Nat → Nat} {owner : PlanOwner} {plan : MemoryPlan}
    (h : planWith wrap owner slots = some plan) :
    PlanAccepts slots ∧
      (((∀ s, ¬ InternalAt slots s) ∧ plan.slots = slots ∧ plan.poolBytes = 0) ∨
      ∃ numOps, (∀ s, InternalAt slots s → (slotAt slots s).deathOp + 1 < numOps) ∧ plan.slots =
          withOffsets slots (finalSweep wrap slots numOps).offset ∧
        plan.poolBytes = (finalSweep wrap slots numOps).poolEnd) := by
  obtain ⟨scan, hscan, hplan⟩ := Option.bind_eq_some_iff.mp h
  obtain ⟨-, -, hall⟩ := scan_spec hscan
  refine ⟨fun slot hslot hint => (hall slot hslot hint).1, ?_⟩
  split at hplan
  · rename_i hnone
    cases hplan
    exact .inl ⟨scan_none hscan hnone, rfl, rfl⟩
  · cases hplan
    refine .inr ⟨scan.maxOp + 1, fun s hs => ?_, rfl, rfl⟩
    have := (hall _ (slotAt_mem hs.1) hs.2).2
    omega

/-! ### The property of a finished plan -/

/-- The slot at an index is internal and live at op `t`. -/
def LiveAt (slots : List TensorSlot) (s t : Nat) : Prop :=
  InternalAt slots s ∧ (slotAt slots s).birthOp ≤ t ∧ t ≤ (slotAt slots s).deathOp

/-- `x` is a byte of `[offset_bytes, offset_bytes + nbytes)`. -/
def TensorSlot.Occupies (slot : TensorSlot) (x : Nat) : Prop :=
  slot.offsetBytes ≤ x ∧ x < slot.offsetBytes + slot.nbytes

/-- What a plan for `slots` has to keep.  Two slots that are live at one op share no
byte, every internal slot is aligned and inside the pool, an external slot keeps its
offset, and no other field of a slot changes. -/
structure PlanSafe (slots : List TensorSlot) (plan : MemoryPlan) : Prop where
  length_eq : plan.slots.length = slots.length
  no_overlap : ∀ t i j, i ≠ j → LiveAt plan.slots i t → LiveAt plan.slots j t →
    ∀ x, (slotAt plan.slots i).Occupies x → ¬ (slotAt plan.slots j).Occupies x
  aligned : ∀ i, InternalAt plan.slots i → alignment ∣ (slotAt plan.slots i).offsetBytes
  inside : ∀ i, InternalAt plan.slots i →
    (slotAt plan.slots i).offsetBytes + (slotAt plan.slots i).nbytes ≤ plan.poolBytes
  external : ∀ i, i < slots.length → (slotAt slots i).isExternal = true →
    (slotAt plan.slots i).offsetBytes = (slotAt slots i).offsetBytes
  frame : ∀ i, slotAt plan.slots i =
    { slotAt slots i with offsetBytes := (slotAt plan.slots i).offsetBytes }

theorem le_alignedSize (nbytes : Nat) : nbytes ≤ alignedSize id nbytes := by
  simp only [alignedSize, alignment, id]
  omega

theorem alignedSize_dvd (wrap : Nat → Nat) (nbytes : Nat) :
    alignment ∣ alignedSize wrap nbytes := Nat.dvd_mul_left _ _

theorem slotSize_dvd (wrap : Nat → Nat) (slots : List TensorSlot) (s : Nat) :
    alignment ∣ slotSize wrap slots s := alignedSize_dvd ..

theorem alignedSize_wrap {nbytes : Nat} (h : alignedSize id nbytes < 2 ^ 64) :
    alignedSize wrap64 nbytes = alignedSize id nbytes := by
  have hlt : nbytes + alignment - 1 < 2 ^ 64 := by
    simp only [alignedSize, alignment, id] at h ⊢
    omega
  simp only [alignedSize, wrap64_of_lt hlt, id]

theorem slotAt_withOffsets {offset : Nat → Nat} (hs : s < slots.length) :
    slotAt (withOffsets slots offset) s = { slotAt slots s with offsetBytes := offset s } := by
  simp [slotAt, withOffsets, hs]

theorem internalAt_withOffsets {offset : Nat → Nat} :
    InternalAt (withOffsets slots offset) s ↔ InternalAt slots s := by
  have hlen : (withOffsets slots offset).length = slots.length := length_mapIdx
  unfold InternalAt
  rw [hlen]
  refine and_congr_right fun hs => ?_
  rw [slotAt_withOffsets hs]

section Finished
variable {numOps : Nat} (haccept : PlanAccepts slots)
  (hnum : ∀ s, InternalAt slots s → (slotAt slots s).deathOp + 1 < numOps)
include hnum

theorem live_block {s t : Nat} (hs : InternalAt slots s) (hbir : (slotAt slots s).birthOp ≤ t)
    (hdeath : t ≤ (slotAt slots s).deathOp) :
    s ∈ heldBefore slots (t + 1) ∧ t + 1 ≤ numOps ∧
      (sweepTo id (slotSize id slots) slots numOps (t + 1)).blk (slotSize id slots) s =
        ⟨(finalSweep id slots numOps).offset s, slotSize id slots s⟩ := by
  have hn := hnum s hs
  have hle : t + 1 ≤ numOps := by omega
  refine ⟨⟨hs, by omega, by omega⟩, hle, ?_⟩
  rw [sweepTo_offset_internal id (show (slotAt slots s).birthOp < t + 1 by omega) hle]
  rfl

include haccept in
theorem internal_block {i : Nat} (hi : InternalAt slots i) :
    alignment ∣ (finalSweep id slots numOps).offset i ∧
      (finalSweep id slots numOps).offset i + slotSize id slots i ≤
        (finalSweep id slots numOps).poolEnd := by
  have hlife := haccept.lifetimes
  have hdvd := slotSize_dvd id slots
  obtain ⟨hheld, hle, hblk⟩ := live_block hnum hi le_rfl (hlife i hi).1
  have hin := (sweepTo_tiled hlife hdvd hle).tiling.own_in i hheld
  rw [hblk] at hin
  exact ⟨hin.2.1, hin.1.trans (sweepTo_poolEnd_mono hlife hdvd hle le_rfl)⟩

include haccept in
/-- A finished sweep over unbounded integers makes a safe plan. -/
theorem planSafe_of_sweep {plan : MemoryPlan} (hslots : plan.slots =
      withOffsets slots (finalSweep id slots numOps).offset)
    (hpool : plan.poolBytes = (finalSweep id slots numOps).poolEnd) :
    PlanSafe slots plan := by
  have hlife := haccept.lifetimes
  have hdvd := slotSize_dvd id slots
  have htil := fun {t : Nat} (ht : t ≤ numOps) => sweepTo_tiled hlife hdvd ht
  refine ⟨by rw [hslots]; exact length_mapIdx, ?_, ?_, ?_, ?_, ?_⟩
  · rintro t i j hij ⟨hi, hib, hid⟩ ⟨hj, hjb, hjd⟩ x hix hjx
    rw [hslots] at hi hib hid hj hjb hjd hix hjx
    rw [internalAt_withOffsets] at hi hj
    rw [slotAt_withOffsets hi.1] at hib hid hix
    rw [slotAt_withOffsets hj.1] at hjb hjd hjx
    obtain ⟨hiheld, hle, hiblk⟩ := live_block hnum hi hib hid
    obtain ⟨hjheld, -, hjblk⟩ := live_block hnum hj hjb hjd
    have hdis := (htil hle).tiling.own_own i hiheld j hjheld hij
    rw [hiblk, hjblk] at hdis
    have hisize : (slotAt slots i).nbytes ≤ slotSize id slots i := le_alignedSize _
    have hjsize : (slotAt slots j).nbytes ≤ slotSize id slots j := le_alignedSize _
    refine hdis.not_covers (x := x) ⟨hix.1, ?_⟩ ⟨hjx.1, ?_⟩
    · exact hix.2.trans_le (Nat.add_le_add_left hisize _)
    · exact hjx.2.trans_le (Nat.add_le_add_left hjsize _)
  · intro i hi
    rw [hslots] at hi ⊢
    rw [internalAt_withOffsets] at hi
    rw [slotAt_withOffsets hi.1]
    exact (internal_block haccept hnum hi).1
  · intro i hi
    rw [hslots] at hi ⊢
    rw [internalAt_withOffsets] at hi
    rw [slotAt_withOffsets hi.1, hpool]
    exact le_trans (Nat.add_le_add_left (le_alignedSize _) _) (internal_block haccept hnum hi).2
  · intro i hi hext
    rw [hslots, slotAt_withOffsets hi]
    exact sweepTo_offset_external id (fun h => by rw [h.2] at hext; cases hext) numOps
  · intro i
    rw [hslots]
    by_cases hi : i < slots.length
    · rw [slotAt_withOffsets hi]
    · have hlen : (withOffsets slots (finalSweep id slots numOps).offset).length = slots.length :=
        length_mapIdx
      simp [slotAt, not_lt.mp hi, hlen]

end Finished

/-- The code's sweep is the unbounded sweep when no size and not the pool end leaves
the word. -/
theorem sweep_eq_unbounded {numOps : Nat} (haccept : PlanAccepts slots)
    (hsize : ∀ s, InternalAt slots s → slotSize id slots s < 2 ^ 64)
    (hend : (finalSweep id slots numOps).poolEnd < 2 ^ 64) :
    finalSweep wrap64 slots numOps =
      finalSweep id slots numOps := by
  have hsame : ∀ s, InternalAt slots s → slotSize wrap64 slots s = slotSize id slots s :=
    fun s hs => alignedSize_wrap (hsize s hs)
  refine (sweepTo_congr wrap64 hsame numOps).trans ?_
  exact sweepTo_wrap haccept.lifetimes (slotSize_dvd id slots) le_rfl hend

def totalBytes (slots : List TensorSlot) : Nat :=
  (slots.map fun slot => if slot.isExternal then 0 else alignedSize id slot.nbytes).sum

theorem totalBytes_eq (slots : List TensorSlot) :
    totalBytes slots = ((range slots.length).map fun s =>
      if (slotAt slots s).isExternal then 0 else slotSize id slots s).sum := by
  refine congrArg sum (ext_getElem (by simp) fun i hi _ => ?_)
  have hlt : i < slots.length := by simpa using hi
  simp [slotAt, slotSize, hlt]

theorem placedBytes_le (slots : List TensorSlot) (t : Nat) :
    placedBytes (slotSize id slots) slots t ≤ totalBytes slots := by
  rw [totalBytes_eq]
  refine sum_le_sum fun s _ => ?_
  cases (slotAt slots s).isExternal with
  | true => simp
  | false =>
    by_cases h : (slotAt slots s).birthOp < t <;> simp [h]

theorem slotSize_le_total (hs : InternalAt slots s) : slotSize id slots s ≤ totalBytes slots := by
  rw [totalBytes_eq]
  refine single_le_sum (fun _ _ => zero_le) _ (mem_map.mpr ⟨s, ?_, ?_⟩)
  · exact mem_range.mpr hs.1
  · simp [hs.2]

/-- **No overlap.**  Slots whose lifetimes pass the check and whose rounded sizes sum
to less than the word are planned, and the plan keeps every promise of `PlanSafe`:
at every op, with any number of births and deaths and any free-list length. -/
theorem computeMemoryPlan_safe (owner : PlanOwner) (slots : List TensorSlot)
    (haccept : PlanAccepts slots) (hsum : totalBytes slots < 2 ^ 64) :
    ∃ plan, computeMemoryPlan owner slots = some plan ∧ PlanSafe slots plan := by
  obtain ⟨plan, hplan⟩ := planned_of_accepts owner haccept
  refine ⟨plan, hplan, ?_⟩
  rcases (planWith_cases hplan).2 with ⟨hnone, hslots, hpool⟩ | ⟨numOps, hnum, hslots, hpool⟩
  · refine ⟨by rw [hslots], ?_, ?_, ?_, ?_, ?_⟩
    · rintro t i j - ⟨hi, -⟩
      exact absurd (hslots ▸ hi) (hnone i)
    · exact fun i hi => absurd (hslots ▸ hi) (hnone i)
    · exact fun i hi => absurd (hslots ▸ hi) (hnone i)
    · exact fun i _ _ => by rw [hslots]
    · exact fun i => by rw [hslots]
  · have hend : (finalSweep id slots numOps).poolEnd < 2 ^ 64 :=
      calc (finalSweep id slots numOps).poolEnd
          ≤ placedBytes (slotSize id slots) slots numOps :=
            sweepTo_poolEnd_le haccept.lifetimes (slotSize_dvd id slots) le_rfl
        _ ≤ totalBytes slots := placedBytes_le slots numOps
        _ < 2 ^ 64 := hsum
    have hsweep := sweep_eq_unbounded haccept
      (fun s hs => lt_of_le_of_lt (slotSize_le_total hs) hsum) hend
    rw [hsweep] at hslots hpool
    exact planSafe_of_sweep haccept hnum hslots hpool

/-- Three overlapping lifetimes and an external slot. -/
def planExample : List TensorSlot :=
  [{ nbytes := 300, birthOp := 0, deathOp := 1, slotId := 0 },
   { nbytes := 100, birthOp := 1, deathOp := 3, slotId := 1 },
   { offsetBytes := 7, nbytes := 64, isExternal := true, slotId := 2 },
   { nbytes := 512, birthOp := 2, deathOp := 2, slotId := 3 }]

theorem computeMemoryPlan_safe_example : PlanAccepts planExample ∧ totalBytes planExample < 2 ^ 64 ∧
      ∃ plan, computeMemoryPlan {} planExample = some plan ∧ PlanSafe planExample plan :=
  ⟨by decide, by decide, computeMemoryPlan_safe {} planExample (by decide) (by decide)⟩

/-- **The pool is as large as it has to be, and not larger than without sharing.**  The slots that
are live at an op fit it together with their rounded sizes, and it has at most the rounded sizes of
all slots. -/
theorem poolBytes_bounds {owner : PlanOwner} {plan : MemoryPlan}
    (hplan : computeMemoryPlan owner slots = some plan) (hsum : totalBytes slots < 2 ^ 64) :
    plan.poolBytes ≤ totalBytes slots ∧
      ∀ (t : Nat) (live : Finset Nat), (∀ s ∈ live, LiveAt slots s t) →
        ∑ s ∈ live, slotSize id slots s ≤ plan.poolBytes := by
  obtain ⟨haccept, ⟨hnone, -, hpool⟩ | ⟨numOps, hnum, -, hpool⟩⟩ := planWith_cases hplan
  · refine ⟨by omega, fun t live hlive => ?_⟩
    obtain rfl : live = ∅ := Finset.eq_empty_of_forall_notMem fun s hs => hnone s (hlive s hs).1
    exact zero_le
  · have hlife := haccept.lifetimes
    have hdvd := slotSize_dvd id slots
    have htotal : (finalSweep id slots numOps).poolEnd ≤ totalBytes slots :=
      (sweepTo_poolEnd_le hlife hdvd le_rfl).trans (placedBytes_le slots numOps)
    rw [sweep_eq_unbounded haccept (fun s hs => (slotSize_le_total hs).trans_lt hsum)
      (htotal.trans_lt hsum)] at hpool
    rw [hpool]
    refine ⟨htotal, fun t live hlive => ?_⟩
    rcases live.eq_empty_or_nonempty with rfl | ⟨s, hs⟩
    · exact zero_le
    · have hheld := fun s hs => live_block hnum (hlive s hs).1 (hlive s hs).2.1 (hlive s hs).2.2
      have hle := (hheld s hs).2.1
      calc ∑ s ∈ live, slotSize id slots s
          ≤ (sweepTo id (slotSize id slots) slots numOps (t + 1)).poolEnd :=
            (sweepTo_tiled hlife hdvd hle).tiling.sum_size_le fun s hs => (hheld s hs).1
        _ ≤ (finalSweep id slots numOps).poolEnd := sweepTo_poolEnd_mono hlife hdvd hle le_rfl

theorem poolBytes_bounds_example : ∃ plan, computeMemoryPlan {} planExample = some plan ∧
    768 ≤ plan.poolBytes ∧ plan.poolBytes ≤ 1280 := by
  obtain ⟨plan, hplan⟩ := planned_of_accepts {} (by decide : PlanAccepts planExample)
  obtain ⟨htotal, hpeak⟩ := poolBytes_bounds hplan (by decide)
  have hlive : ∀ s ∈ ({0, 1} : Finset Nat), LiveAt planExample s 1 := by
    simp [LiveAt, InternalAt, planExample, slotAt]
  exact ⟨plan, hplan, hpeak 1 {0, 1} hlive, htotal⟩

end Plan
end Crucible
