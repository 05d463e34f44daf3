import Crucible.LogReleases
import Crucible.MarkedQueue

/-! # Commit markers along the pipeline

The detect stage sends a commit marker after each batch, and the stages pass it on over
the channels that carry the regions.  The pipeline refines a queue of jobs and markers, so a
marker that has been handled has every region of its batches before it settled, and the count
of processed entries is the sum of those batches.
-/
namespace Crucible
open List PublishMessage

/-- An outcome agrees with the check of the epoch. -/
def Outcome.Justified : Outcome → Prop
  | .published epoch resetEpoch => epoch = resetEpoch
  | .stale epoch resetEpoch => epoch ≠ resetEpoch
  | .storeFull epoch resetEpoch => epoch = resetEpoch
  | .overflow => True

def PublishMessage.entry : PublishMessage → Option QueueEntry
  | .region id _ _ => some (.job id)
  | .commit count => some (.marker count)
  | .release _ => none

def PipelineWork.entry : PipelineWork → QueueEntry
  | .build id _ => .job id
  | .commit count => .marker count

namespace Pipeline

/-- The regions and markers in flight, the oldest first. -/
def entries (p : Pipeline) : List QueueEntry :=
  p.messages.filterMap entry ++ p.unbuilt.map PipelineWork.entry

/-- The queue that the pipeline implements. -/
structure Tallies (p : Pipeline) (q : MarkedQueue Outcome) : Prop where
  queue : q.queue = p.entries
  entered : q.entered = p.ledger.cuts
  marked : q.marked.length = p.ledger.marked
  settled : q.settled = p.ledger.settled
  passed : q.passed = p.ledger.committed
  total : q.total = p.totalProcessed
  batches : p.ledger.drained.map length =
    q.marked ++ ((p.batch.map Prod.snd).toList ++ p.batches.map length)
  checked : ∀ id parts epoch resetEpoch, p.checked = some (id, parts, epoch, resetEpoch) →
    epoch = resetEpoch

variable {p p' : Pipeline} {q : MarkedQueue Outcome}

theorem start_tallies (owner : PlanOwner) : ({ owner } : Pipeline).Tallies {} :=
  ⟨rfl, rfl, rfl, rfl, rfl, rfl, rfl, nofun⟩

/-- What one action of the pipeline is to the queue: nothing, or one step. -/
def Mirrors (p' : Pipeline) (q : MarkedQueue Outcome) : Prop :=
  ∃ q', (q' = q ∨ MarkedQueue.Step Outcome.Justified q q') ∧ p'.Tallies q'

theorem Tallies.stays (h : p'.Tallies q) : p'.Mirrors q := ⟨q, .inl rfl, h⟩

/-! ### The drain stage and the detect stage -/

theorem Tallies.drain (h : p.Tallies q) (count : Nat) : (p.drain count).Tallies q := by
  obtain heq | ⟨-, -, heq⟩ := drain_cases p count <;> rw [heq]
  · exact h
  · refine { h with batches := ?_ }
    rw [map_append, map_append, h.batches, append_assoc, append_assoc]

theorem Tallies.checkReset (h : p.Tallies q) (hres : p.checkReset = .ok p') : p'.Tallies q := by
  obtain rfl | ⟨detect, -, rfl⟩ := checkReset_cases hres
  · exact h
  · exact { h with }

theorem Tallies.takeBatch (h : p.Tallies q) (htake : p.takeBatch = .ok p') : p'.Tallies q := by
  obtain rfl | ⟨ops, batches, hbatch, hbat, htake⟩ := takeBatch_cases htake
  · exact h
  · refine Tallies.checkReset ?_ htake
    refine { h with batches := ?_ }
    have hcoun := h.batches
    rw [hbatch, hbat] at hcoun
    exact hcoun

theorem Tallies.detectNext (h : p.Tallies q) (hdet : p.detectNext = .ok p') : p'.Mirrors q := by
  obtain rfl | ⟨op, rest, count, r, detect, answer, hbat, hres, -, rfl⟩ :=
    detectNext_cases hdet
  · exact h.stays
  · have hr := h.checkReset hres
    have hcoun : r.ledger.drained.map length = q.marked ++ ([count] ++ r.batches.map length) := by
      have hbat' : r.batch = some (op :: rest, count) := by
        obtain rfl | ⟨detect', -, rfl⟩ := checkReset_cases hres
        · exact hbat
        · exact hbat
      have hcoun := hr.batches
      rw [hbat'] at hcoun
      exact hcoun
    have hquiet : ({ r with detect, batch := some (rest, count) } : Pipeline).Tallies q :=
      { hr with batches := hcoun }
    rcases answer with - | ⟨length, - | work⟩
    · exact hquiet.stays
    · exact hquiet.stays
    · refine ⟨_, .inr (.enter q), { hr with queue := ?_, entered := ?_, batches := hcoun }⟩
      · change q.queue ++ [.job q.entered.length] = _ ++
          (r.building.toList ++ (r.works ++ [PipelineWork.build r.ledger.cuts.length work])).map _
        rw [hr.queue, hr.entered, ← append_assoc r.building.toList, map_append, ← append_assoc]
        rfl
      · change q.entered ++ [q.marked.length] = r.ledger.cuts ++ [r.ledger.marked]
        rw [hr.entered, hr.marked]

theorem Tallies.sendCommit (h : p.Tallies q) : p.sendCommit.Mirrors q := by
  obtain heq | ⟨count, hbat, heq⟩ := sendCommit_cases p <;> rw [heq]
  · exact h.stays
  · refine ⟨_, .inr (.mark q count), { h with queue := ?_, marked := ?_, batches := ?_ }⟩
    · change q.queue ++ [.marker count] = _ ++
        (p.building.toList ++ (p.works ++ [PipelineWork.commit count])).map _
      rw [h.queue, ← append_assoc p.building.toList, map_append, ← append_assoc]
      rfl
    · rw [length_append, h.marked]
      rfl
    · have hcoun := h.batches
      rw [hbat] at hcoun
      rw [append_assoc]
      exact hcoun

/-! ### The build stage -/

theorem Tallies.takeWork (h : p.Tallies q) : p.takeWork.Tallies q := by
  have hunb := takeWork_unbuilt p
  obtain ⟨-, heq⟩ | ⟨work, works, -, -, heq⟩ := takeWork_cases p <;> rw [heq] at hunb ⊢
  · exact h
  · refine { h with queue := ?_ }
    rw [h.queue, Pipeline.entries, Pipeline.entries, hunb]
    rfl

theorem Tallies.buildNext (h : p.Tallies q) (hbuild : p.buildNext = .ok p') : p'.Mirrors q := by
  have hent : ∀ {w}, p.building = some w → q.queue =
      p.messages.filterMap entry ++ w.entry :: p.works.map PipelineWork.entry := by
    intro w hbuil
    rw [h.queue, Pipeline.entries, Pipeline.unbuilt, hbuil]
    rfl
  obtain ⟨-, rfl⟩ | ⟨count, hbuil, rfl⟩ | ⟨id, work, metaEnd, hbuil, -, rfl⟩ |
    ⟨id, work, scratch, parts, hbuil, -, rfl⟩ := buildNext_cases hbuild
  · exact h.stays
  · refine Tallies.stays { h with queue := ?_ }
    change q.queue = (_ ++ (p.publishes ++ [commit count])).filterMap _ ++
      p.works.map _
    rw [hent hbuil, ← append_assoc, filterMap_append, append_assoc]
    rfl
  · have hset : Outcome.Justified .overflow := trivial
    refine ⟨_, .inr (.settle (hent hbuil) hset), { h with queue := ?_, settled := ?_ }⟩
    · change _ = (_ ++ if metaEnd > 0 then p.publishes ++ [.release metaEnd] else
        p.publishes).filterMap _ ++ p.works.map _
      split
      · rw [← append_assoc, filterMap_append]
        exact congrArg (· ++ _) (append_nil _).symm
      · rfl
    · change q.settled ++ [_] = p.ledger.settled ++ [_]
      rw [h.settled]
  · refine Tallies.stays { h with queue := ?_ }
    change q.queue = (_ ++ (p.publishes ++ [region id parts work.epoch])).filterMap _
      ++ p.works.map _
    rw [hent hbuil, ← append_assoc, filterMap_append, append_assoc]
    rfl

/-! ### The publish stage -/

theorem Tallies.releaseMetaLog {metaEnd : Nat} (h : p.Tallies q)
    (hrel : p.releaseMetaLog metaEnd = .ok p') : p'.Tallies q := by
  obtain ⟨log, -, rfl⟩ := releaseMetaLog_cases hrel
  exact { h with }

theorem Tallies.settleFront (h : p.Tallies q) (outcome : Outcome) {id epoch : Nat}
    {parts : BuiltTrace} {rest : List PublishMessage} {r : Pipeline}
    (hmes : p.messages = .region id parts epoch :: rest) (ho : outcome.Justified)
    (hrest : r.messages = rest) (hchec : r.checked = none) (hunb : r.unbuilt = p.unbuilt)
    (hled : r.ledger = p.ledger) (htot : r.totalProcessed = p.totalProcessed)
    (hbatch : r.batch = p.batch) (hbat : r.batches = p.batches) :
    (r.settle id outcome).Mirrors q := by
  have hqueue : q.queue = [] ++ .job id ::
      (rest.filterMap entry ++ p.unbuilt.map PipelineWork.entry) := by
    rw [h.queue, Pipeline.entries, hmes]
    rfl
  refine ⟨_, .inr (.settle hqueue ho), ?_, ?_, ?_, ?_, ?_, ?_, ?_, ?_⟩
  · change _ = r.messages.filterMap _ ++ r.unbuilt.map _
    rw [hrest, hunb]
    rfl
  · exact h.entered.trans (congrArg Ledger.cuts hled).symm
  · exact h.marked.trans (congrArg Ledger.marked hled).symm
  · change q.settled ++ [_] = r.ledger.settled ++ [_]
    rw [h.settled, hled]
  · exact h.passed.trans (congrArg Ledger.committed hled).symm
  · exact h.total.trans htot.symm
  · change r.ledger.drained.map _ = q.marked ++ ((r.batch.map _).toList ++ r.batches.map _)
    rw [hled, hbatch, hbat]
    exact h.batches
  · intro id' parts' epoch' resetEpoch heq
    exact nomatch hchec.symm.trans heq

/-- A commit marker leaves at the end of the queue, and a stale region is settled. -/
theorem Tallies.takePublish (h : p.Tallies q) (htake : p.takePublish = .ok p') : p'.Mirrors q := by
  obtain ⟨-, rfl⟩ | ⟨count, publishes, hchec, hpub, rfl⟩ |
    ⟨metaEnd, publishes, hchec, hpub, htake⟩ |
    ⟨id, parts, epoch, publishes, hchec, hpub, ⟨hstale, htake⟩ | ⟨hfresh, rfl⟩⟩ :=
    takePublish_cases htake
  · exact h.stays
  · have hqueue : q.queue = .marker count ::
        (publishes.filterMap entry ++ p.unbuilt.map PipelineWork.entry) := by
      rw [h.queue, Pipeline.entries, messages_unchecked hchec, hpub]
      rfl
    refine ⟨_, .inr (.pass hqueue), { h with queue := ?_, passed := ?_, total := ?_ }⟩
    · rw [Pipeline.entries, messages_unchecked (by exact hchec)]
      rfl
    · exact congrArg (· + 1) h.passed
    · exact congrArg (· + count) h.total
  · refine Tallies.stays (Tallies.releaseMetaLog ?_ htake)
    refine { h with queue := ?_ }
    rw [h.queue, Pipeline.entries, Pipeline.entries, messages_unchecked hchec,
      messages_unchecked (by exact hchec), hpub]
    rfl
  · obtain ⟨q', hstep, hq'⟩ := h.settleFront (.stale epoch p.detect.epoch)
      (r := { p with publishes }) ((messages_unchecked hchec).trans hpub) hstale
      (messages_unchecked (by exact hchec)) hchec rfl rfl rfl rfl rfl
    exact ⟨q', hstep, hq'.releaseMetaLog htake⟩
  · refine Tallies.stays { h with queue := ?_, checked := ?_ }
    · rw [h.queue, Pipeline.entries, messages_unchecked hchec, hpub]
      rfl
    · intro id' parts' epoch' resetEpoch heq
      cases heq
      exact hfresh

theorem Tallies.publishRegion {marks : RegionMarks} (h : p.Tallies q)
    (hpub : p.publishRegion marks = .ok p') : p'.Mirrors q := by
  obtain ⟨-, rfl⟩ | ⟨id, parts, epoch, resetEpoch, hchec, hcase⟩ := publishRegion_cases hpub
  · exact h.stays
  · have hmes : p.messages = .region id parts epoch :: p.publishes := by
      rw [Pipeline.messages, hchec]
      rfl
    have hepoch := h.checked id parts epoch resetEpoch hchec
    rcases hcase with ⟨-, store, hrel⟩ | ⟨r, store, hrel, rfl⟩
    · obtain ⟨q', hstep, hq'⟩ := h.settleFront (.storeFull epoch resetEpoch)
        (r := { p with checked := none, store }) hmes hepoch rfl rfl rfl rfl rfl rfl rfl
      exact ⟨q', hstep, hq'.releaseMetaLog hrel⟩
    · obtain ⟨q', hstep, hq'⟩ := h.settleFront (.published epoch resetEpoch)
        (r := { p with checked := none }) hmes hepoch rfl rfl rfl rfl rfl rfl rfl
      have hr := hq'.releaseMetaLog hrel
      exact ⟨q', hstep, { hr with }⟩

/-! ### Runs -/

/-- **One action of the pipeline** is at most one step of the queue. -/
theorem Tallies.step {a : PipelineAction} (h : p.Tallies q) (hstep : p.step a = .ok p') :
    p'.Mirrors q := by
  cases a with
  | record entry metas scopeHash callsiteHash =>
    obtain ⟨⟨log, index⟩, -, hstep⟩ := bind_ok hstep
    cases hstep
    exact Tallies.stays
      { h with }
  | requestReset =>
    cases hstep
    exact Tallies.stays
      { h with }
  | drain count =>
    cases hstep
    exact (h.drain count).stays
  | takeBatch => exact (h.takeBatch hstep).stays
  | detect => exact h.detectNext hstep
  | commit =>
    cases hstep
    exact h.sendCommit
  | takeWork =>
    cases hstep
    exact h.takeWork.stays
  | build => exact h.buildNext hstep
  | takePublish => exact h.takePublish hstep
  | publish marks => exact h.publishRegion hstep

/-- **Every run of the pipeline** refines the queue. -/
theorem run_tallies {owner : PlanOwner} {actions : List PipelineAction}
    (h : runPipeline { owner } actions = .ok p) :
    ∃ q : MarkedQueue Outcome, q.Valid Outcome.Justified ∧ p.Tallies q := by
  refine foldlM_inv (fun p : Pipeline =>
    ∃ q : MarkedQueue Outcome, q.Valid Outcome.Justified ∧ p.Tallies q)
    ⟨{}, MarkedQueue.start_valid, start_tallies owner⟩ ?_ h
  rintro r a r' - ⟨q, hval, htal⟩ hstep
  obtain ⟨q', hq', htal'⟩ := htal.step hstep
  rcases hq' with rfl | hq'
  · exact ⟨q', hval, htal'⟩
  · exact ⟨q', hval.step hq', htal'⟩

end Pipeline

/-- **Commit markers never overtake the regions of their batches.**  In every state of a
run, the count of processed entries is the number of entries in the batches whose markers
have been handled, every region cut while those batches were detected is settled, and no
region is settled twice.  A region that was published had the reset epoch at its check,
and one that was discarded as stale did not. -/
theorem markers_settle_regions {owner : PlanOwner} {actions : List PipelineAction} {p : Pipeline}
    (h : runPipeline { owner } actions = .ok p) :
    p.totalProcessed = ((p.ledger.drained.take p.ledger.committed).map length).sum ∧
    (∀ id batch, p.ledger.cuts[id]? = some batch → batch < p.ledger.committed →
      ∃ outcome, (id, outcome) ∈ p.ledger.settled) ∧
    (p.ledger.settled.map Prod.fst).Nodup ∧
    ∀ s ∈ p.ledger.settled, s.2.Justified := by
  obtain ⟨q, hvalid, htallies⟩ := Pipeline.run_tallies h
  refine ⟨?_, fun id batch hbatch hlt => ?_, ?_, ?_⟩
  · rw [← htallies.total, hvalid.total_eq, map_take, htallies.batches, ← htallies.passed,
      take_append_of_le_length hvalid.passed_le]
  · rw [← htallies.settled]
    rw [← htallies.entered] at hbatch
    rw [← htallies.passed] at hlt
    exact hvalid.settled_of_passed hbatch hlt
  · rw [← htallies.settled]
    exact hvalid.nodup_settled
  · rw [← htallies.settled]
    exact hvalid.outcomes

/-- Twenty entries in one batch give two regions, both published before the marker. -/
theorem markers_settle_regions_body : ∃ p, runPipeline {} (bodyRun 1 20) = .ok p ∧
    p.ledger.committed = 1 ∧ p.totalProcessed = 20 ∧ p.ledger.cuts = [0, 0] ∧
    ∃ outcome, (1, outcome) ∈ p.ledger.settled := by
  obtain ⟨p, hrun, heval⟩ : ∃ p, runPipeline {} (bodyRun 1 20) = .ok p ∧
      (p.ledger.committed, p.totalProcessed, p.ledger.cuts) = (1, 20, [0, 0]) :=
    ok_of_eval (by decide +kernel)
  obtain ⟨hcommitted, hrest⟩ := Prod.mk.inj heval
  obtain ⟨htotal, hcuts⟩ := Prod.mk.inj hrest
  refine ⟨p, hrun, hcommitted, htotal, hcuts, ?_⟩
  exact (markers_settle_regions hrun).2.1 1 0 (by rw [hcuts]; rfl) (by rw [hcommitted]; decide)

end Crucible
