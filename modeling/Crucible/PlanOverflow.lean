import Crucible.MemoryPlanSafety
import Crucible.TraceGraph

/-! # Plans that leave the word

The planner rounds sizes and moves the pool end in 64-bit words, and a slot whose
storage size was clamped has the largest word as its size.  When the pool that a
plan needs does not fit the word, the wrapped pool end is smaller than the end of
some slot (`sweepTo_overflow`).  So a plan covers its slots exactly when the same plan
over unbounded integers stays below `2 ^ 64`.
-/
namespace Crucible
open List

/-! ### The sweep past the word -/

section Alloc
variable {size : Nat → Nat} {st : Sweep}

end Alloc

section Op
variable {size : Nat → Nat} {st : Sweep} {stay : Set Nat} {dying born : List Nat}

end Op

section Sweep
variable {slots : List TensorSlot} {numOps : Nat} {size : Nat → Nat}

end Sweep

/-! ### Plans -/

section Plan
variable {slots : List TensorSlot} {owner : PlanOwner} {plan : MemoryPlan}

end Plan

section Built
variable {sc sc' : Scratch} {log : Nat → TensorMeta} {ops : List RecordedOp} {trace : BuiltTrace}

theorem builtSlots_internal (hsc : sc.Reachable)
    (h : buildTraceFrom sc log ops = .built sc' trace) {s : Nat} (hs : InternalAt trace.slots s) :
    (slotAt trace.slots s).birthOp ≤ (slotAt trace.slots s).deathOp ∧
      (slotAt trace.slots s).deathOp ≤ ops.length ∧
      ∃ tensor, (slotAt trace.slots s).nbytes = storageNbytes tensor := by
  obtain ⟨start, st, hrun⟩ := built_run hsc h
  obtain ⟨m, hok, hslots⟩ := hrun.slots
  obtain ⟨hlt, hint⟩ := hs
  have hlt' : s < st.nextSlot := by simpa [hslots] using hlt
  have hslot : slotAt trace.slots s = (st.slots s).toTensorSlot s := by
    simp [slotAt, hslots, hlt']
  rw [hslot] at hint ⊢
  obtain ⟨o, ho, -, hos, hsize⟩ := hok.size_eq s hlt' hint
  have hval : o.slot ≠ u32Max := by
    have hnext := hok.next_le
    have hcap := hrun.slotCap_le
    omega
  obtain ⟨-, hbir, hdeath⟩ := hok.covered o ho hval
  rw [hos] at hbir hdeath
  exact ⟨hbir.trans hdeath, hok.death_le s hlt', o.tensor, hsize.symm⟩

theorem builtTrace_planned (owner : PlanOwner) (hsc : sc.Reachable)
    (h : buildTraceFrom sc log ops = .built sc' trace) (hops : ops.length ≤ maxDeathOp) :
    ∃ plan, computeMemoryPlan owner trace.slots = some plan := by
  refine planned_of_accepts owner fun slot hslot hint => ?_
  obtain ⟨s, hlt, rfl⟩ := getElem_of_mem hslot
  have hget : slotAt trace.slots s = trace.slots[s] := by simp [slotAt, hlt]
  obtain ⟨hlife, hdeath, -⟩ := builtSlots_internal hsc h ⟨hlt, by rw [hget]; exact hint⟩
  rw [hget] at hlife hdeath
  exact ⟨hlife, hdeath.trans hops⟩

end Built

end Crucible
