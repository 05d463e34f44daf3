import Crucible.PipelineSteps

/-! # Moves along the channels

What the order of the pipeline is about is the log and four lists: the ops that the
detect stage has not seen, the work items that it has cut, the messages that the build
stage has sent, and what the observer has written down.  Apart from the recording of
an op, every action does one of a few things to these lists.
-/
namespace Crucible

def PublishMessage.metaEnd : PublishMessage → Nat
  | .region _ parts _ => parts.maxMetaEnd
  | .commit _ => 0
  | .release metaEnd => metaEnd

namespace Pipeline
variable {p p' q : Pipeline}

/-- The messages on their way to the log, the oldest first. -/
def messages (p : Pipeline) : List PublishMessage :=
  (p.checked.map fun c => .region c.1 c.2.1 c.2.2.1).toList ++ p.publishes

/-- The work items behind them. -/
def unbuilt (p : Pipeline) : List PipelineWork := p.building.toList ++ p.works

def unseen (p : Pipeline) : List RecordedOp :=
  (p.batch.map Prod.fst).getD [] ++ (p.batches.flatten ++ p.ring)

theorem takeWork_unbuilt (p : Pipeline) : p.takeWork.unbuilt = p.unbuilt := by
  obtain ⟨-, h⟩ | ⟨work, works, hbuil, hwor, h⟩ := takeWork_cases p
  · rw [h]
  · rw [h, Pipeline.unbuilt, Pipeline.unbuilt, hbuil, hwor]
    rfl

theorem unbuilt_building {w : PipelineWork} (h : p.building = some w) :
    p.unbuilt = w :: p.works := by
  rw [Pipeline.unbuilt, h]
  rfl

theorem messages_unchecked (h : p.checked = none) : p.messages = p.publishes := by
  rw [Pipeline.messages, h]
  rfl

/-- The pipeline with the item that a stage holds at the front of its channel. -/
def queues (p : Pipeline) : Pipeline where
  log := p.log
  ring := p.unseen
  detect := p.detect
  works := p.unbuilt
  scratch := p.scratch
  publishes := p.messages
  ledger :=
    { appended := p.ledger.appended, released := p.ledger.released, copies := p.ledger.copies }

/-- The work item that an answer of the detect stage cuts. -/
def worksOf (id : Nat) : Option (Nat × Option BuildWork) → List PipelineWork
  | some (_, some work) => [.build id work]
  | _ => []

theorem mem_worksOf {id : Nat} {answer : Option (Nat × Option BuildWork)} {w : PipelineWork} :
    w ∈ worksOf id answer ↔ ∃ length work, answer = some (length, some work) ∧
      w = .build id work := by
  rcases answer with - | ⟨length, - | work⟩ <;> simp [worksOf]

/-- What a step can do to the channels. -/
inductive Moves (p : Pipeline) : Pipeline → Prop
  | reset {detect : DetectStage} (h : p.detect.doReset = .ok detect) :
      Moves p { p.queues with detect }
  | detect {op : RecordedOp} {ring : List RecordedOp} {detect : DetectStage}
      {answer : Option (Nat × Option BuildWork)} (hunseen : p.unseen = op :: ring)
      (h : p.detect.detectOp op = .ok (detect, answer)) (id : Nat) :
      Moves p { p.queues with detect, ring, works := p.unbuilt ++ worksOf id answer }
  | commit (count : Nat) : Moves p { p.queues with works := p.unbuilt ++ [.commit count] }
  | pass {count : Nat} {works : List PipelineWork} (hunbuilt : p.unbuilt = .commit count :: works) :
      Moves p { p.queues with works, publishes := p.messages ++ [.commit count] }
  | overflow {id metaEnd : Nat} {work : BuildWork} {works : List PipelineWork}
      (hunbuilt : p.unbuilt = .build id work :: works)
      (h : scanTrace work.ops = .error metaEnd) :
      Moves p { p.queues with
        works, publishes := p.messages ++ if metaEnd > 0 then [.release metaEnd] else [] }
  | build {id : Nat} {work : BuildWork} {works : List PipelineWork} {scratch : Scratch}
      {parts : BuiltTrace} (hunbuilt : p.unbuilt = .build id work :: works)
      (h : buildTraceFrom p.scratch p.log.record work.ops = .built scratch parts) :
      Moves p { p.queues with
        works, scratch, publishes := p.messages ++ [.region id parts work.epoch]
        ledger := { p.queues.ledger with copies := p.ledger.copies ++ copiedRun p.log work.ops } }
  | committed {count : Nat} {publishes : List PublishMessage}
      (hmessages : p.messages = .commit count :: publishes) : Moves p { p.queues with publishes }
  | release {m : PublishMessage} {publishes : List PublishMessage} {log : MetaLog}
      (hmessages : p.messages = m :: publishes) (h : p.log.release m.metaEnd = .ok log) :
      Moves p { p.queues with
        publishes, log
        ledger := { p.queues.ledger with released := p.ledger.released ++ [m.metaEnd] } }

/-- The channels of `p'` come from those of `p` by moves. -/
abbrev Changes (p p' : Pipeline) : Prop := Relation.ReflTransGen Moves p.queues p'.queues

theorem Changes.of_eq (h : p'.queues = p.queues) : Changes p p' := by
  rw [Changes, h]

theorem checkReset_changes (h : p.checkReset = .ok p') : Changes p p' := by
  obtain rfl | ⟨detect, hres, rfl⟩ := checkReset_cases h
  · exact .refl
  · exact .single (.reset hres)

theorem drain_changes (p : Pipeline) (count : Nat) : Changes p (p.drain count) := by
  obtain h | ⟨-, -, h⟩ := drain_cases p count <;> rw [h]
  refine .of_eq ?_
  simp [queues, unseen, unbuilt, messages]

theorem takeBatch_changes (h : p.takeBatch = .ok p') : Changes p p' := by
  obtain rfl | ⟨ops, batches, hbatch, hbat, h⟩ := takeBatch_cases h
  · exact .refl
  · refine .trans (Changes.of_eq ?_) (checkReset_changes h)
    simp [queues, unseen, unbuilt, messages, hbatch, hbat]

theorem detectNext_changes (h : p.detectNext = .ok p') : Changes p p' := by
  obtain rfl | ⟨op, rest, count, q, detect, answer, hbat, hres, hdet, rfl⟩ :=
    detectNext_cases h
  · exact .refl
  · have huns : q.unseen = op :: (rest ++ (q.batches.flatten ++ q.ring)) := by
      obtain rfl | ⟨detect', -, rfl⟩ := checkReset_cases hres <;> simp [unseen, hbat]
    refine (checkReset_changes hres).tail ?_
    have hmove := Moves.detect (p := q.queues) huns hdet q.ledger.cuts.length
    rcases answer with - | ⟨length, - | work⟩ <;>
      simpa [queues, unseen, unbuilt, messages, sendWork, worksOf] using hmove

theorem sendCommit_changes (p : Pipeline) : Changes p p.sendCommit := by
  obtain h | ⟨count, hbat, h⟩ := sendCommit_cases p <;> rw [h]
  have hmove := Moves.commit (p := p.queues) count
  refine .single ?_
  simpa [queues, unseen, unbuilt, messages, hbat] using hmove

theorem takeWork_changes (p : Pipeline) : Changes p p.takeWork := by
  obtain ⟨-, h⟩ | ⟨work, works, hbuil, hwor, h⟩ := takeWork_cases p <;> rw [h]
  refine .of_eq ?_
  simp [queues, unseen, unbuilt, messages, hbuil, hwor]

theorem buildNext_changes (h : p.buildNext = .ok p') : Changes p p' := by
  obtain ⟨-, rfl⟩ | ⟨count, hbuil, rfl⟩ | ⟨id, work, metaEnd, hbuil, hscan, rfl⟩ |
    ⟨id, work, scratch, parts, hbuil, hbuild, rfl⟩ := buildNext_cases h
  · exact .refl
  · refine .single ?_
    have hunb := unbuilt_building hbuil
    have hmove := Moves.pass (p := p.queues) hunb
    simpa [queues, unseen, unbuilt, messages] using hmove
  · refine .single ?_
    have hunb := unbuilt_building hbuil
    have hmove := Moves.overflow (p := p.queues) hunb hscan
    by_cases hend : metaEnd > 0 <;>
    simpa [queues, unseen, unbuilt, messages, afterOverflow, hend] using hmove
  · refine .single ?_
    have hunb := unbuilt_building hbuil
    have hmove := Moves.build (p := p.queues) hunb hbuild
    simpa [queues, unseen, unbuilt, messages, afterBuild] using hmove

theorem releaseMetaLog_changes {m : PublishMessage} {publishes : List PublishMessage}
    (hmes : p.messages = m :: publishes) (hq : q.queues = { p.queues with publishes })
    (h : q.releaseMetaLog m.metaEnd = .ok p') : Changes p p' := by
  obtain ⟨log, hlog, rfl⟩ := releaseMetaLog_cases h
  change q.queues.log.release _ = _ at hlog
  rw [hq] at hlog
  change Relation.ReflTransGen Moves p.queues { q.queues with
    log, ledger := { q.queues.ledger with released := q.queues.ledger.released ++ [m.metaEnd] } }
  rw [hq]
  exact .single (.release hmes hlog)

theorem takePublish_changes (h : p.takePublish = .ok p') : Changes p p' := by
  obtain ⟨-, rfl⟩ | ⟨count, publishes, hchec, hpub, rfl⟩ |
    ⟨metaEnd, publishes, hchec, hpub, h⟩ |
    ⟨id, parts, epoch, publishes, hchec, hpub, ⟨-, h⟩ | ⟨-, rfl⟩⟩ := takePublish_cases h
  · exact .refl
  · refine .single ?_
    have hmove := Moves.committed (p := p.queues) ((messages_unchecked hchec).trans hpub)
    simpa [queues, unseen, unbuilt, messages, hchec] using hmove
  · refine releaseMetaLog_changes (m := .release metaEnd) ((messages_unchecked hchec).trans hpub)
      ?_ h
    simp [queues, unseen, unbuilt, messages, hchec]
  · refine releaseMetaLog_changes (m := .region id parts epoch)
      ((messages_unchecked hchec).trans hpub) ?_ h
    simp [queues, unseen, unbuilt, messages, settle, hchec]
  · refine .of_eq ?_
    simp [queues, unseen, unbuilt, messages, hchec, hpub]

theorem publishRegion_changes {marks : RegionMarks} (h : p.publishRegion marks = .ok p') :
    Changes p p' := by
  obtain ⟨-, rfl⟩ | ⟨id, parts, epoch, resetEpoch, hchec, hcase⟩ := publishRegion_cases h
  · exact .refl
  · have hmes : p.messages = .region id parts epoch :: p.publishes := by
      rw [messages, hchec]
      rfl
    rcases hcase with ⟨-, store, h⟩ | ⟨q, store, hrel, rfl⟩
    · exact releaseMetaLog_changes (m := .region id parts epoch) hmes (by rfl) h
    · exact (releaseMetaLog_changes (m := .region id parts epoch) hmes (by rfl) hrel : Changes p q)

/-- **One action** records an op or moves items along the channels. -/
theorem step_changes {a : PipelineAction} (h : p.step a = .ok p') :
    (∃ entry metas scopeHash callsiteHash, a = .record entry metas scopeHash callsiteHash ∧
      p.recordOp entry metas scopeHash callsiteHash = .ok p') ∨ Changes p p' := by
  cases a with
  | record entry metas scopeHash callsiteHash => exact .inl ⟨_, _, _, _, rfl, h⟩
  | requestReset =>
    cases h
    exact .inr .refl
  | drain count =>
    cases h
    exact .inr (drain_changes p count)
  | takeBatch => exact .inr (takeBatch_changes h)
  | detect => exact .inr (detectNext_changes h)
  | commit =>
    cases h
    exact .inr (sendCommit_changes p)
  | takeWork =>
    cases h
    exact .inr (takeWork_changes p)
  | build => exact .inr (buildNext_changes h)
  | takePublish => exact .inr (takePublish_changes h)
  | publish marks => exact .inr (publishRegion_changes h)

theorem Changes.keeps (Inv : Pipeline → Prop) (h : Changes p p') (hp : Inv p.queues)
    (hmov : ∀ {q q'}, Moves q q' → Inv q → Inv q') : Inv p'.queues := by
  rw [Changes] at h
  generalize p'.queues = final at h
  induction h with
  | refl => exact hp
  | tail _ hmove ih => exact hmov hmove ih

end Pipeline
end Crucible
