import Crucible.Spans
import Mathlib.Data.List.Nodup
import Mathlib.Data.List.Range
import Mathlib.Algebra.Order.Ring.Nat
import Mathlib.Algebra.BigOperators.Group.List.Basic

/-! # A queue of jobs and markers

Jobs enter a queue in the order of their numbers, and markers enter between them.  A job
may leave from any place, when it is settled, but a marker leaves only from the front.
So when a marker leaves, every job that entered before it has been settled.  Each marker
carries a size, and the queue adds up the sizes of the markers that have left.
-/
namespace Crucible
open List

inductive QueueEntry where
  | job (id : Nat)
  | marker (size : Nat)
deriving DecidableEq

namespace QueueEntry

def jobId : QueueEntry → Option Nat
  | job id => some id
  | marker _ => none

def size : QueueEntry → Option Nat
  | job _ => none
  | marker size => some size

/-- A job fits when it entered between the markers `lo` and `hi`, and a marker takes one
number. -/
def span (entered : List Nat) : Span Nat QueueEntry where
  fits lo hi e := match e with
    | job id => ∃ n, entered[id]? = some n ∧ lo ≤ n ∧ n ≤ hi
    | marker _ => lo < hi
  le {lo hi e} h := by
    cases e with
    | job id =>
      obtain ⟨n, -, hlo, hhi⟩ := h
      exact hlo.trans hhi
    | marker size => exact h.le
  mono {lo lo' hi hi' e} hlo hhi h := by
    cases e with
    | job id =>
      obtain ⟨n, hn, hge, hle⟩ := h
      exact ⟨n, hn, hlo.trans hge, hle.trans hhi⟩
    | marker size => exact hlo.trans_lt (h.trans_le hhi)

end QueueEntry
open QueueEntry

/-- A queue with what has entered it and what has left it. -/
structure MarkedQueue (ο : Type) where
  queue : List QueueEntry := []
  /-- For each job, the number of markers that entered before it. -/
  entered : List Nat := []
  /-- The sizes of the markers that entered. -/
  marked : List Nat := []
  settled : List (Nat × ο) := []
  /-- The number of markers that left, and the sum of their sizes. -/
  passed : Nat := 0
  total : Nat := 0

namespace MarkedQueue
variable {ο : Type} {allowed : ο → Prop} {q q' : MarkedQueue ο}

/-- A step of the queue.  A job may only be settled with an allowed outcome. -/
inductive Step (allowed : ο → Prop) : MarkedQueue ο → MarkedQueue ο → Prop
  | enter (q : MarkedQueue ο) : Step allowed q { q with
      queue := q.queue ++ [.job q.entered.length]
      entered := q.entered ++ [q.marked.length] }
  | mark (q : MarkedQueue ο) (size : Nat) : Step allowed q { q with
      queue := q.queue ++ [.marker size]
      marked := q.marked ++ [size] }
  | settle {q : MarkedQueue ο} {front id back o} (hqueue : q.queue = front ++ .job id :: back)
      (ho : allowed o) :
      Step allowed q { q with
        queue := front ++ back
        settled := q.settled ++ [(id, o)] }
  | pass {q : MarkedQueue ο} {size rest} (hqueue : q.queue = .marker size :: rest) :
      Step allowed q { q with
      queue := rest
      passed := q.passed + 1
      total := q.total + size }

structure Valid (allowed : ο → Prop) (q : MarkedQueue ο) : Prop where
  total_eq : q.total = (q.marked.take q.passed).sum
  markers : q.queue.filterMap size = q.marked.drop q.passed
  jobs : (q.settled.map Prod.fst ++ q.queue.filterMap jobId).Perm
    (range q.entered.length)
  behind : (span q.entered).Laid q.passed q.queue q.marked.length
  outcomes : ∀ s ∈ q.settled, allowed s.2

theorem start_valid : ({} : MarkedQueue ο).Valid allowed :=
  ⟨rfl, rfl, Perm.refl _, .nil le_rfl, nofun⟩

variable (h : q.Valid allowed)
include h

theorem Valid.passed_le : q.passed ≤ q.marked.length := h.behind.le

theorem Valid.enter : ({ q with
    queue := q.queue ++ [.job q.entered.length]
    entered := q.entered ++ [q.marked.length] } : MarkedQueue ο).Valid allowed := by
  refine ⟨h.total_eq, ?_, ?_, ?_, h.outcomes⟩
  · rw [filterMap_append, h.markers]
    exact append_nil _
  · rw [filterMap_append, length_append, length_singleton, range_succ, ← append_assoc]
    exact h.jobs.append_right _
  · refine Span.Laid.concat (h.behind.imp fun lo hi e he => ?_) ?_
    · cases e with
      | job id =>
        obtain ⟨n, hn, hbet⟩ := he
        exact ⟨n, getElem?_append_left (List.getElem?_eq_some_iff.mp hn).1 ▸ hn, hbet⟩
      | marker size => exact he
    · exact ⟨q.marked.length, getElem?_concat_length, le_rfl, le_rfl⟩

theorem Valid.mark (size : Nat) : ({ q with
    queue := q.queue ++ [.marker size]
    marked := q.marked ++ [size] } : MarkedQueue ο).Valid allowed := by
  refine ⟨?_, ?_, ?_, ?_, h.outcomes⟩
  · rw [take_append_of_le_length h.passed_le]
    exact h.total_eq
  · rw [filterMap_append, h.markers, drop_append_of_le_length h.passed_le]
    rfl
  · rw [filterMap_append]
    exact (append_nil (q.queue.filterMap jobId)).symm ▸ h.jobs
  · rw [length_append]
    exact h.behind.concat (lt_add_one _)

theorem Valid.settle {front back : List QueueEntry} {id : Nat} {o : ο}
    (hqueue : q.queue = front ++ .job id :: back) (ho : allowed o) : ({ q with
      queue := front ++ back
      settled := q.settled ++ [(id, o)] } : MarkedQueue ο).Valid allowed := by
  refine ⟨h.total_eq, ?_, ?_, ?_, fun s hs => ?_⟩
  · have hmar := h.markers
    rw [hqueue, filterMap_append] at hmar
    rw [filterMap_append, ← hmar]
    rfl
  · have hjobs := h.jobs
    rw [hqueue, filterMap_append] at hjobs
    rw [map_append, filterMap_append, append_assoc]
    -- the job leaves its place in the queue for the end of the settled jobs
    have hmove : (front.filterMap jobId ++ id :: back.filterMap jobId).Perm
        (id :: (front.filterMap jobId ++ back.filterMap jobId)) :=
      perm_middle
    exact (hmove.symm.append_left _).trans hjobs
  · have hbeh := h.behind
    rw [hqueue] at hbeh
    exact hbeh.remove
  · rcases mem_append.mp hs with hs | hs
    · exact h.outcomes s hs
    · rw [mem_singleton.mp hs]
      exact ho

theorem Valid.pass {size : Nat} {rest : List QueueEntry}
    (hqueue : q.queue = .marker size :: rest) : ({ q with
      queue := rest
      passed := q.passed + 1
      total := q.total + size } : MarkedQueue ο).Valid allowed := by
  have hmar : size :: rest.filterMap QueueEntry.size = q.marked.drop q.passed := by
    have hmar := h.markers
    rw [hqueue] at hmar
    exact hmar
  have hnext : q.marked[q.passed]? = some size := by
    have hzero := congrArg (·[0]?) hmar
    rw [getElem?_drop] at hzero
    exact hzero.symm
  refine ⟨?_, ?_, ?_, ?_, h.outcomes⟩
  · rw [take_add_one, hnext, sum_append, h.total_eq]
    rfl
  · rw [← drop_drop, ← hmar]
    rfl
  · have hjobs := h.jobs
    rw [hqueue] at hjobs
    exact hjobs
  · have hbeh := h.behind
    rw [hqueue] at hbeh
    obtain ⟨mid, hlt, hrest⟩ := hbeh.of_cons
    exact hrest.mono_left hlt

/-- **One step** keeps the invariant. -/
theorem Valid.step (hstep : Step allowed q q') : q'.Valid allowed := by
  cases hstep with
  | enter => exact h.enter
  | mark size => exact h.mark size
  | settle hqueue ho => exact h.settle hqueue ho
  | pass hqueue => exact h.pass hqueue

/-- **A job that entered before a marker which has left is settled.** -/
theorem Valid.settled_of_passed {id n : Nat}
    (hn : q.entered[id]? = some n) (hlt : n < q.passed) : ∃ o, (id, o) ∈ q.settled := by
  have hid : id ∈ range q.entered.length :=
    mem_range.mpr (List.getElem?_eq_some_iff.mp hn).1
  rcases mem_append.mp (h.jobs.mem_iff.mpr hid) with hmem | hmem
  · obtain ⟨s, hs, rfl⟩ := mem_map.mp hmem
    exact ⟨s.2, hs⟩
  · -- a job in the queue entered after every marker that has left
    obtain ⟨e, he, hjob⟩ := mem_filterMap.mp hmem
    cases e with
    | marker size => cases hjob
    | job id' =>
      cases hjob
      obtain ⟨n', hn', hge, -⟩ := h.behind.mem he
      cases hn'.symm.trans hn
      exact absurd hge hlt.not_ge

/-- **No job is settled twice.** -/
theorem Valid.nodup_settled : (q.settled.map Prod.fst).Nodup :=
  (nodup_append.mp (h.jobs.nodup_iff.mpr nodup_range)).1

end MarkedQueue
end Crucible
