import Crucible.PipelineOrder

/-! # The releases of the metadata log

The publish stage moves the tail of the log to the end of each message that has one.
The order of the pipeline puts every message between the tail and the head, so each such
end is past the last one.  The build stage copies the run of a work item before the publish
stage can release it, so the copy is what the foreground appended.
-/
namespace Crucible
open List

/-- The copied run lay in the log, and holds the records that were appended there. -/
structure CopiedRun.InLog (c : CopiedRun) (appended : List TensorMeta) : Prop where
  tail_le : c.tail ≤ c.first
  last_le : c.last ≤ c.head
  length_le : c.last - c.first ≤ metaLogCapacity
  head_le : c.head ≤ appended.length
  records_eq : c.records = (appended.drop c.first).take (c.last - c.first)

theorem CopiedRun.InLog.append {c : CopiedRun} {appended : List TensorMeta}
    (h : c.InLog appended) (metas : List TensorMeta) : c.InLog (appended ++ metas) := by
  have hlast := h.last_le
  have hhead := h.head_le
  refine ⟨h.tail_le, hlast, h.length_le, ?_, ?_⟩
  · rw [length_append]
    omega
  · rw [h.records_eq]
    by_cases hle : c.first ≤ appended.length
    · rw [drop_append_of_le_length hle, take_append_of_le_length]
      rw [length_drop]
      omega
    · rw [Nat.sub_eq_zero_of_le (by omega), take_zero, take_zero]

namespace Pipeline
variable {p p' : Pipeline}

/-- **Every state in which the build stage holds a work item** has the run of the item in
the log. -/
theorem Ordered.copiedRun_inLog {past segment : List RecordedOp} {claimed built cut : Nat}
    (ho : p.Ordered past segment claimed built cut) {id : Nat} {work : BuildWork}
    {works : List PipelineWork} (hunb : p.unbuilt = .build id work :: works) :
    ∀ c ∈ copiedRun p.log work.ops, c.InLog p.ledger.appended := by
  intro c hc
  unfold copiedRun at hc
  split at hc
  · rename_i last first ins outs hscan
    obtain rfl := mem_singleton.mp hc
    have hkeeps := ho.keeps
    have hlive := hkeeps.live_le
    rcases ho.building_scan hunb hscan with ⟨hnone, -⟩ | ⟨first', hfir, hlo, hlt, hhi⟩
    · cases hnone
    · cases hfir
      refine ⟨hlo, hhi, ?_, le_of_eq hkeeps.head_eq, hkeeps.copyRun hlo hhi⟩
      change last - first ≤ metaLogCapacity
      change last ≤ p.log.head at hhi
      omega
  · cases hc

/-- What the observer has written down agrees with the log. -/
structure Audited (p : Pipeline) : Prop where
  released_le : ∀ v ∈ p.ledger.released, v ≤ p.log.tail
  increasing : (p.ledger.released.filter (0 < ·)).Pairwise (· < ·)
  copies : ∀ c ∈ p.ledger.copies, c.InLog p.ledger.appended

theorem audited_queues : p.queues.Audited ↔ p.Audited := by
  constructor <;> intro h <;> exact ⟨h.released_le, h.increasing, h.copies⟩

theorem Audited.recordOp {entry : RingEntry} {metas : List TensorMeta}
    {scopeHash callsiteHash : Nat} (hp : p.Audited) (hkeeps : p.log.Keeps p.ledger.appended)
    (h : p.recordOp entry metas scopeHash callsiteHash = .ok p') : p'.Audited := by
  obtain ⟨⟨log, index⟩, hlog, h⟩ := bind_ok h
  have htail : log.tail = p.log.tail :=
    (MetaLog.tryAppend_appended hkeeps.cached_le hkeeps.tail_le hlog).tail_eq
  cases h
  refine ⟨?_, hp.increasing, ?_⟩
  · rw [htail]
    exact hp.released_le
  · intro c hc
    change c.InLog (if index.isSome then p.ledger.appended ++ metas else p.ledger.appended)
    split
    · exact (hp.copies c hc).append metas
    · exact hp.copies c hc

theorem Audited.release (hp : p.Audited) {metaEnd : Nat} {log : MetaLog}
    (h : p.log.release metaEnd = .ok log) :
    (∀ v ∈ p.ledger.released ++ [metaEnd], v ≤ log.tail) ∧
      ((p.ledger.released ++ [metaEnd]).filter (0 < ·)).Pairwise (· < ·) := by
  obtain ⟨rfl, rfl⟩ | ⟨hlt, rfl⟩ := MetaLog.release_cases h
  · refine ⟨?_, ?_⟩
    · rw [forall_mem_append, forall_mem_singleton]
      exact ⟨hp.released_le, zero_le⟩
    · simpa using hp.increasing
  · refine ⟨?_, ?_⟩
    · rw [forall_mem_append, forall_mem_singleton]
      exact ⟨fun v hv => le_trans (hp.released_le v hv) hlt.le, le_rfl⟩
    · rw [filter_append, pairwise_append]
      refine ⟨hp.increasing, ?_, fun a ha b hb => ?_⟩
      · exact (pairwise_singleton (· < ·) metaEnd).sublist filter_sublist
      · have ha := hp.released_le a (mem_of_mem_filter ha)
        have hb := mem_singleton.mp (mem_of_mem_filter hb)
        omega

theorem Audited.moves (hp : p.Audited) (hord : p.InOrder) (h : Moves p p') : p'.Audited := by
  have hsame : ∀ {q : Pipeline}, q.log = p.log → q.ledger = p.queues.ledger → q.Audited := by
    intro q hlog hled
    refine ⟨?_, ?_, ?_⟩ <;> simp only [hlog, hled]
    · exact hp.released_le
    · exact hp.increasing
    · exact hp.copies
  cases h with
  | build hunb h =>
    obtain ⟨past, segment, claimed, built, cut, ho⟩ := hord
    refine ⟨hp.released_le, hp.increasing, fun c hc => ?_⟩
    rcases mem_append.mp hc with hc | hc
    · exact hp.copies c hc
    · exact ho.copiedRun_inLog hunb c hc
  | release hmes h =>
    obtain ⟨hrel, hinc⟩ := hp.release h
    exact ⟨hrel, hinc, hp.copies⟩
  | reset _ | detect _ _ _ | commit _ | pass _ | overflow _ _ | committed _ => exact hsame rfl rfl

theorem Audited.step {a : PipelineAction} (hp : p.Audited) (hord : p.InOrder)
    (h : p.step a = .ok p') : p'.Audited := by
  obtain ⟨entry, metas, scopeHash, callsiteHash, rfl, h⟩ | h := step_changes h
  · obtain ⟨past, segment, claimed, built, cut, ho⟩ := hord
    exact hp.recordOp ho.keeps h
  · have hall : p'.queues.InOrder ∧ p'.queues.Audited :=
      h.keeps (fun q => q.InOrder ∧ q.Audited)
        ⟨inOrder_queues.mpr hord, audited_queues.mpr hp⟩
        fun hmov hq => ⟨hq.1.moves hmov, hq.2.moves hq.1 hmov⟩
    exact audited_queues.mp hall.2

theorem run_audited {owner : PlanOwner} {actions : List PipelineAction}
    (hprom : ∀ a ∈ actions, a.Promised) (h : runPipeline { owner } actions = .ok p) :
    p.InOrder ∧ p.Audited := by
  refine foldlM_inv (fun p : Pipeline => p.InOrder ∧ p.Audited)
    ⟨start_inOrder owner, nofun, List.Pairwise.nil, nofun⟩ ?_ h
  rintro q a q' ha ⟨hord, haud⟩ hstep
  exact ⟨hord.step (hprom a ha) hstep, haud.step hord hstep⟩

end Pipeline

/-- **The releases of every run.**  The values other than zero that `release_meta_log` is
called with are strictly increasing and never past the head, and the contract of the
tail holds at the next release.  Every run of the log that the build stage copied lay
between the tail and the head, and so does the run of the work item that it holds. -/
theorem releases_increase {owner : PlanOwner} {actions : List PipelineAction} {p : Pipeline}
    (hpromise : ∀ a ∈ actions, a.Promised) (h : runPipeline { owner } actions = .ok p) :
    (p.ledger.released.filter (0 < ·)).Pairwise (· < ·) ∧
    (∀ v ∈ p.ledger.released, v ≤ p.log.head) ∧
    (∀ v, p.nextRelease = some v → v ≤ p.log.head ∧ ∃ log, p.log.release v = .ok log) ∧
    (∀ c ∈ p.ledger.copies, c.InLog p.ledger.appended) ∧
    ∀ id work, p.building = some (.build id work) →
      ∀ c ∈ Pipeline.copiedRun p.log work.ops, c.InLog p.ledger.appended := by
  obtain ⟨⟨past, segment, claimed, built, cut, ho⟩, haudited⟩ := Pipeline.run_audited hpromise h
  refine ⟨haudited.increasing, fun v hv => ?_, fun v hv => ?_, haudited.copies,
    fun id work hbuilding => ho.copiedRun_inLog (Pipeline.unbuilt_building hbuilding)⟩
  · exact le_trans (haudited.released_le v hv) ho.keeps.tail_le
  · obtain ⟨m, rest, hmessages, rfl⟩ : ∃ m rest, p.messages = m :: rest ∧ m.metaEnd = v := by
      unfold Pipeline.nextRelease at hv
      split at hv
      · cases hv
      · rename_i m rest _ hmessages
        exact ⟨m, rest, hmessages, Option.some.inj hv⟩
      · cases hv
    have hwithin := ho.release_within hmessages
    obtain ⟨log, hlog, -⟩ := ho.keeps.release hwithin
    exact ⟨by omega, log, hlog⟩

/-- Ops of a body of five, each with `outputs` tensors, recorded, drained as one batch
and carried through the stages. -/
def bodyRun (outputs ops : Nat) : List PipelineAction :=
  (range ops).map (fun i =>
      .record { schemaHash := i % 5, shapeHash := 0, numOutputs := outputs }
        (replicate outputs { dataPtr := 4096 }) 0 i) ++
    [.drain ops, .takeBatch] ++ replicate ops .detect ++ [.commit] ++
    (replicate 3 [.takeWork, .build]).flatten ++
    (replicate 3 [.takePublish, .publish {}]).flatten

theorem bodyRun_promised (outputs ops : Nat) : ∀ a ∈ bodyRun outputs ops, a.Promised := by
  intro a ha
  simp only [bodyRun, mem_append, mem_map, mem_flatten, mem_replicate,
    mem_cons, not_mem_nil, or_false] at ha
  rcases ha with ((((⟨i, -, rfl⟩ | rfl | rfl) | ⟨-, rfl⟩) | rfl) | ⟨l, ⟨-, rfl⟩, ha⟩) |
    ⟨l, ⟨-, rfl⟩, ha⟩
  · exact .inr (by simp)
  · trivial
  · trivial
  · trivial
  · trivial
  · simp only [mem_cons, not_mem_nil, or_false] at ha
    rcases ha with rfl | rfl <;> trivial
  · simp only [mem_cons, not_mem_nil, or_false] at ha
    rcases ha with rfl | rfl <;> trivial

theorem releases_increase_body : ∃ p, runPipeline {} (bodyRun 1 20) = .ok p ∧
    p.ledger.released = [10, 15] ∧ (p.ledger.released.filter (0 < ·)).Pairwise (· < ·) ∧
    ∀ c ∈ p.ledger.copies, c.InLog p.ledger.appended := by
  obtain ⟨p, hrun, hreleased⟩ : ∃ p, runPipeline {} (bodyRun 1 20) = .ok p ∧
      p.ledger.released = [10, 15] := ok_of_eval (by decide +kernel)
  obtain ⟨hincreasing, -, -, hcopies, -⟩ := releases_increase (bodyRun_promised 1 20) hrun
  exact ⟨p, hrun, hreleased, hincreasing, hcopies⟩

/-- Two regions whose ops have no tensors both pass zero. -/
theorem releases_increase_empty : ∃ p, (∀ a ∈ bodyRun 0 20, a.Promised) ∧
    runPipeline {} (bodyRun 0 20) = .ok p ∧ ¬ p.ledger.released.Pairwise (· < ·) := by
  obtain ⟨p, hrun, hreleased⟩ : ∃ p, runPipeline {} (bodyRun 0 20) = .ok p ∧
      p.ledger.released = [0, 0] := ok_of_eval (by decide +kernel)
  exact ⟨p, bodyRun_promised 0 20, hrun, by rw [hreleased]; decide⟩

end Crucible
