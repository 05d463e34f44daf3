import Crucible.RingBuffer
import Crucible.TraceBuild

/-! # The metadata log

The foreground appends the tensor metadata of each op to a ring, and the publish stage
moves the tail past the records of a work item when it is done with it.  Head and tail
are 64-bit counts of records that do not wrap.  The foreground keeps a private view of
the tail and reads the real one only when its view has no room.
-/
namespace Crucible
open List

def metaLogMask : Nat := metaLogCapacity - 1

structure MetaLog where
  entries : Nat → TensorMeta := fun _ => default
  head : Nat := 0
  tail : Nat := 0
  cachedTail : Nat := 0

namespace MetaLog
variable (log : MetaLog)

/-- The end of `try_append`: the copy of the records and the new head. -/
def store (metas : List TensorMeta) : MetaLog × Option Nat :=
  ({ log with
      entries := Ring.write metaLogMask log.entries log.head metas
      head := log.head + metas.length },
    some log.head)

/-- `try_append`.  The index of the first record, or none when the log is full. -/
def tryAppend (metas : List TensorMeta) : Except Fault (MetaLog × Option Nat) :=
  if metaLogCapacity < metas.length then .error .contract
  else if metas.length = 0 then .ok (log, none)
  else if log.head - log.cachedTail + metas.length > metaLogCapacity then
    if log.tail < log.cachedTail then .error .contract
    else
      let log := { log with cachedTail := log.tail }
      if log.head - log.cachedTail + metas.length > metaLogCapacity then .ok (log, none)
      else .ok (log.store metas)
  else .ok (log.store metas)

/-- `copy_run`, for the records `[first, last)`. -/
def copyRun (first last : Nat) : List TensorMeta :=
  Ring.read metaLogMask log.entries first (last - first)

/-- The record at an index, in its slot. -/
def record (index : Nat) : TensorMeta := log.entries (index &&& metaLogMask)

/-- `advance_tail`.  The contract of the tail is strict. -/
def advanceTail (newTail : Nat) : Except Fault MetaLog :=
  if log.tail < newTail then .ok { log with tail := newTail } else .error .contract

/-- `release_meta_log`. -/
def release (metaEnd : Nat) : Except Fault MetaLog :=
  if metaEnd > 0 then log.advanceTail metaEnd else .ok log

/-! ### The records that the log holds -/

theorem metaLogMask_pow : PowMask metaLogMask := ⟨20, rfl⟩

/-- The log after `records` have been appended: the slots hold those from the tail on. -/
structure Keeps (records : List TensorMeta) : Prop where
  head_eq : log.head = records.length
  cached_le : log.cachedTail ≤ log.tail
  tail_le : log.tail ≤ log.head
  live_le : log.head ≤ log.tail + metaLogCapacity
  holds : Ring.Holds metaLogMask log.entries (fun p => records.getD p default) log.tail log.head

variable {log} {log' : MetaLog} {records metas : List TensorMeta} {index : Option Nat}

theorem start_keeps : ({} : MetaLog).Keeps [] :=
  ⟨rfl, le_rfl, le_rfl, zero_le, Ring.Holds.empty _ _ _ _⟩

theorem Keeps.store (h : log.Keeps records)
    (hroom : log.head + metas.length ≤ log.tail + metaLogCapacity) :
    (log.store metas).1.Keeps (records ++ metas) := by
  have hhead := h.head_eq
  have hold : Ring.Holds metaLogMask log.entries (fun p => (records ++ metas).getD p default)
      log.tail log.head :=
    h.holds.congr fun p _ hp => (getD_append _ _ _ _ (hhead ▸ hp)).symm
  refine ⟨?_, h.cached_le, ?_, hroom, ?_⟩
  · change log.head + metas.length = (records ++ metas).length
    rw [hhead, length_append]
  · exact h.tail_le.trans le_self_add
  · refine hold.write metaLogMask_pow h.tail_le hroom fun i hi => ?_
    rw [hhead, getD_append_right _ _ _ _ le_self_add, Nat.add_sub_cancel_left,
      getD_eq_getElem _ _ hi]
    rfl

/-- What an append leaves, and what it answers. -/
structure Appended (log log' : MetaLog) (metas : List TensorMeta) (index : Option Nat) : Prop where
  tail_eq : log'.tail = log.tail
  cached_le : log'.cachedTail ≤ log.tail
  answer : (index = none ∧ log'.head = log.head ∧ log'.entries = log.entries ∧
      (metas = [] ∨ log.tail + metaLogCapacity < log.head + metas.length)) ∨
    (index = some log.head ∧ metas ≠ [] ∧ log.head + metas.length ≤ log.tail + metaLogCapacity ∧
      log'.head = log.head + metas.length ∧
      log'.entries = Ring.write metaLogMask log.entries log.head metas)

theorem tryAppend_appended (hcac : log.cachedTail ≤ log.tail) (hle : log.tail ≤ log.head)
    (h : log.tryAppend metas = .ok (log', index)) : Appended log log' metas index := by
  unfold tryAppend at h
  split at h
  · cases h
  split at h
  · rename_i hnil
    cases h
    exact ⟨rfl, hcac, .inl ⟨rfl, rfl, rfl, .inl (eq_nil_of_length_eq_zero hnil)⟩⟩
  rename_i hne
  have hne : metas ≠ [] := fun heq => hne (by rw [heq]; rfl)
  split at h
  · split at h
    · cases h
    dsimp only at h
    split at h
    · cases h
      exact ⟨rfl, le_rfl, .inl ⟨rfl, rfl, rfl, .inr (by omega)⟩⟩
    · cases h
      exact ⟨rfl, le_rfl, .inr ⟨rfl, hne, by omega, rfl, rfl⟩⟩
  · cases h
    exact ⟨rfl, hcac, .inr ⟨rfl, hne, by omega, rfl, rfl⟩⟩

theorem tryAppend_total (hcac : log.cachedTail ≤ log.tail) (hlen : metas.length ≤ metaLogCapacity) :
    ∃ log' index, log.tryAppend metas = .ok (log', index) := by
  unfold tryAppend
  rw [if_neg hlen.not_gt]
  split
  · exact ⟨_, _, rfl⟩
  split
  · rw [if_neg hcac.not_gt]
    dsimp only
    split
    · exact ⟨_, _, rfl⟩
    · exact ⟨_, _, rfl⟩
  · exact ⟨_, _, rfl⟩

theorem Keeps.tryAppend (hk : log.Keeps records) (h : log.tryAppend metas = .ok (log', index)) :
    log'.Keeps (if index.isSome then records ++ metas else records) := by
  obtain ⟨htail, hcac, ⟨rfl, hhead, hent, -⟩ | ⟨rfl, -, hroom, hhead, hent⟩⟩ :=
    tryAppend_appended hk.cached_le hk.tail_le h
  · refine ⟨hhead.trans hk.head_eq, htail ▸ hcac, ?_, ?_, ?_⟩
    · rw [htail, hhead]
      exact hk.tail_le
    · rw [htail, hhead]
      exact hk.live_le
    · rw [htail, hhead, hent]
      exact hk.holds
  · have hstore := hk.store hroom
    refine ⟨hhead.trans hstore.head_eq, htail ▸ hcac, ?_, ?_, ?_⟩
    · rw [htail, hhead]
      exact hstore.tail_le
    · rw [htail, hhead]
      exact hstore.live_le
    · rw [htail, hhead, hent]
      exact hstore.holds

theorem Keeps.release {metaEnd : Nat} (hk : log.Keeps records)
    (hend : metaEnd = 0 ∨ log.tail < metaEnd ∧ metaEnd ≤ log.head) :
    ∃ log', log.release metaEnd = .ok log' ∧ log'.Keeps records ∧ log'.head = log.head ∧
      log'.tail = if metaEnd = 0 then log.tail else metaEnd := by
  have hlive := hk.live_le
  rcases hend with rfl | ⟨hlt, hle⟩
  · exact ⟨log, rfl, hk, rfl, rfl⟩
  · refine ⟨{ log with tail := metaEnd }, ?_, ⟨hk.head_eq, ?_, hle, ?_, ?_⟩, rfl, ?_⟩
    · rw [MetaLog.release, if_pos (by omega), advanceTail, if_pos hlt]
    · exact hk.cached_le.trans hlt.le
    · change log.head ≤ metaEnd + metaLogCapacity
      omega
    · exact hk.holds.mono hlt.le le_rfl
    · rw [if_neg (by omega)]

/-- **A copied run of the log is the run that was appended**, while the tail is at or
before it. -/
theorem Keeps.copyRun {first last : Nat} (hk : log.Keeps records) (hfir : log.tail ≤ first)
    (hlast : last ≤ log.head) :
    log.copyRun first last = (records.drop first).take (last - first) := by
  have hlive := hk.live_le
  have hhead := hk.head_eq
  have hhol := hk.holds
  have hcap : metaLogMask + 1 = metaLogCapacity := rfl
  rw [hhead] at hhol
  exact hhol.read_eq metaLogMask_pow hfir (by omega) (by omega)

end MetaLog
end Crucible
