import Crucible.Loops
import Crucible.Types

/-! # Session event logs

A log stamps its own events with a counter, and takes events whose step the caller chose, as a
replay does.  The log refuses a step below the last one, but a replayed step leaves the counter
where it is: the next stamp then is below the replayed step.
-/
namespace Crucible
open List

/-- `SessionEvent`.  `body` is what the log does not read. -/
structure SessionEvent (β : Type) where
  stepId : Nat
  session : Nat
  body : β
deriving DecidableEq

structure SessionEventLog (β : Type) where
  log : List (SessionEvent β) := []
  sessionId : Nat := 0
  stepCounter : Nat := 0
deriving DecidableEq

inductive LogCall (β : Type) where
  | record (event : SessionEvent β)
  | recordNow (event : SessionEvent β)
deriving DecidableEq

namespace SessionEventLog

variable {β : Type}

/-- `OrderedAppendOnly::append`.  The key is the step. -/
def append (l : SessionEventLog β) (event : SessionEvent β) : Except Fault (SessionEventLog β) :=
  if ∃ last ∈ l.log.getLast?, event.stepId < last.stepId then .error .contract
  else .ok { l with log := l.log ++ [event] }

/-- `next_step`.  The counter does not wrap. -/
def nextStep (l : SessionEventLog β) : Except Fault (SessionEventLog β × Nat) :=
  if l.stepCounter = u64Max then .error .contract
  else .ok ({ l with stepCounter := l.stepCounter + 1 }, l.stepCounter + 1)

def record (l : SessionEventLog β) (event : SessionEvent β) : Except Fault (SessionEventLog β) :=
  l.append event

def recordNow (l : SessionEventLog β) (event : SessionEvent β) :
    Except Fault (SessionEventLog β) := do
  let (l, stepId) ← l.nextStep
  l.append { event with stepId := stepId, session := l.sessionId }

def call (l : SessionEventLog β) : LogCall β → Except Fault (SessionEventLog β)
  | .record event => l.record event
  | .recordNow event => l.recordNow event

def stamps (calls : List (LogCall β)) : Nat := calls.countP fun c => c matches .recordNow _

def StampsAbove (l : SessionEventLog β) (event : SessionEvent β) : Prop :=
  ∃ l' stamped, l.recordNow event = .ok l' ∧ l'.log = l.log ++ [stamped] ∧
    ∀ earlier ∈ l.log, earlier.stepId < stamped.stepId

variable {l l' : SessionEventLog β} {event : SessionEvent β} {calls : List (LogCall β)}

theorem append_ok : l.append event = .ok l' ↔
    (∀ last ∈ l.log.getLast?, last.stepId ≤ event.stepId) ∧
      l' = { l with log := l.log ++ [event] } := by
  rw [append, check_ok, Except.ok.injEq, eq_comm]
  simp

theorem recordNow_ok : l.recordNow event = .ok l' ↔ l.stepCounter ≠ u64Max ∧
    (∀ last ∈ l.log.getLast?, last.stepId ≤ l.stepCounter + 1) ∧
      l' = { l with
        log := l.log ++ [⟨l.stepCounter + 1, l.sessionId, event.body⟩]
        stepCounter := l.stepCounter + 1 } := by
  by_cases hmax : l.stepCounter = u64Max
  · simp [recordNow, nextStep, hmax, bind, Except.bind]
  · rw [recordNow, nextStep, if_neg hmax]
    exact append_ok.trans (and_iff_right hmax).symm

/-- What a run leaves: each event of the log is replayed, or stamped by the counter. -/
structure Ran (calls : List (LogCall β)) (l : SessionEventLog β) : Prop where
  counter : l.stepCounter = stamps calls
  origin : ∀ event ∈ l.log, .record event ∈ calls ∨ event.stepId ≤ stamps calls
  replayed : ∀ event, .record event ∈ calls → event ∈ l.log

theorem Ran.call {c : LogCall β} (h : Ran calls l) (hcall : l.call c = .ok l') :
    Ran (calls ++ [c]) l' := by
  obtain ⟨hcounter, horigin, hreplayed⟩ := h
  have hcount : stamps (calls ++ [c]) = stamps calls + stamps [c] := countP_append
  cases c with
  | record event =>
    obtain ⟨-, rfl⟩ := append_ok.mp hcall
    rw [show stamps [LogCall.record event] = 0 from rfl] at hcount
    constructor <;> grind
  | recordNow event =>
    obtain ⟨-, -, rfl⟩ := recordNow_ok.mp hcall
    rw [show stamps [LogCall.recordNow event] = 1 from rfl] at hcount
    constructor <;> grind

theorem ran {sessionId : Nat}
    (hrun : calls.foldlM call { sessionId := sessionId } = .ok l) : Ran calls l := by
  induction calls using reverseRecOn generalizing l with
  | nil =>
    cases hrun
    exact ⟨rfl, nofun, nofun⟩
  | append_singleton calls c ih =>
    rw [foldlM_append] at hrun
    obtain ⟨mid, hmid, hlast⟩ := bind_ok hrun
    obtain ⟨_, hcall, heq⟩ := bind_ok hlast
    cases heq
    exact (ih hmid).call hcall

/-- **A log goes on** with stamps above everything recorded exactly if no replayed step lies above
the number of stamps so far.  A replay that keeps the order goes on in any case. -/
theorem log_continues_iff {sessionId : Nat}
    (hrun : calls.foldlM call { sessionId := sessionId } = .ok l) :
    (∀ event, (∀ last ∈ l.log.getLast?, last.stepId ≤ event.stepId) →
      ∃ l', l.record event = .ok l') ∧
    ∀ event, l.StampsAbove event ↔ stamps calls ≠ u64Max ∧
      ∀ replayed, .record replayed ∈ calls → replayed.stepId ≤ stamps calls := by
  have hran := ran hrun
  refine ⟨fun event hlast => ⟨_, append_ok.mpr ⟨hlast, rfl⟩⟩, fun event => ⟨?_, ?_⟩⟩
  · rintro ⟨l', stamped, hnow, hlog, habove⟩
    obtain ⟨hmax, -, rfl⟩ := recordNow_ok.mp hnow
    obtain rfl := singleton_inj.mp (append_cancel_left hlog)
    rw [hran.counter] at hmax habove
    exact ⟨hmax, fun e he => Nat.le_of_lt_succ (habove e (hran.replayed e he))⟩
  · rintro ⟨hmax, hsteps⟩
    have hle : ∀ e ∈ l.log, e.stepId ≤ l.stepCounter := by
      intro e he
      rw [hran.counter]
      exact (hran.origin e he).elim (hsteps e) id
    rw [← hran.counter] at hmax
    refine ⟨_, _, recordNow_ok.mpr ⟨hmax, fun last hlast => ?_, rfl⟩, rfl, fun e he => ?_⟩
    · exact (hle last (mem_of_mem_getLast? hlast)).trans (Nat.le_succ _)
    · exact Nat.lt_succ_of_le (hle e he)

/-- A replayed step at the counter. -/
theorem log_continues_stamped : StampsAbove (β := Unit)
    ⟨[⟨1, 0, ()⟩, ⟨1, 7, ()⟩], 0, 1⟩ ⟨0, 0, ()⟩ := by
  have hrun : [LogCall.recordNow ⟨0, 0, ()⟩, .record ⟨1, 7, ()⟩].foldlM call {} =
      .ok ⟨[⟨1, 0, ()⟩, ⟨1, 7, ()⟩], 0, 1⟩ := rfl
  refine ((log_continues_iff hrun).2 _).mpr ⟨by decide, fun e he => ?_⟩
  simp at he
  simp [he, stamps]

/-- **A replayed log cannot be continued.** -/
theorem replay_blocks_stamps :
    [LogCall.record ⟨5, 0, ()⟩, .recordNow ⟨0, 0, ()⟩].foldlM call {} = .error .contract := rfl

end SessionEventLog
end Crucible
