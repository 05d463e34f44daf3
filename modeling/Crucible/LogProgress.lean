import Crucible.LogReleases
import Crucible.LogStall
import Crucible.PlanOverflow

/-! # Runs in which the log makes progress

The log stays full for good only when it was filled while no message and no work item
had metadata to release.  In a run where every append that fills the log finds such an
item on its way, the publish stage reaches the item and moves the tail, without a further op:
no build, plan or release of a reachable state fails.
-/
namespace Crucible
open List Pipeline

/-! ### Items on their way to the log -/

def PipelineWork.metaEnd : PipelineWork → Nat
  | .build _ work =>
    match scanTrace work.ops with
    | .ok scan => scan.maxMetaEnd
    | .error metaEnd => metaEnd
  | .commit _ => 0

namespace Pipeline

/-- The ends that the messages and the work items release, the oldest first. -/
def inFlight (p : Pipeline) : List Nat :=
  p.messages.map PublishMessage.metaEnd ++ p.unbuilt.map PipelineWork.metaEnd

def Releasable (p : Pipeline) : Prop := ∃ metaEnd ∈ p.inFlight, 0 < metaEnd

instance (p : Pipeline) : Decidable p.Releasable := decidableBEx _ _

/-- The action keeps the promise of the caller, and when it fills the log some item has
metadata to release. -/
def Guarded (p : Pipeline) (a : PipelineAction) : Prop :=
  a.Promised ∧ match a with
    | .record _ metas _ _ =>
      p.log.head + metas.length = p.log.tail + metaLogCapacity → p.Releasable
    | _ => True

instance (p : Pipeline) : ∀ a, Decidable (p.Guarded a)
  | .record .. => inferInstanceAs (Decidable (_ ∧ (_ → _)))
  | .requestReset | .drain _ | .takeBatch | .detect | .commit | .takeWork | .build | .takePublish
  | .publish _ => inferInstanceAs (Decidable (_ ∧ True))

variable {p p' : Pipeline}

theorem building_metaEnd_error {id metaEnd : Nat} {work : BuildWork}
    (h : scanTrace work.ops = .error metaEnd) : (PipelineWork.build id work).metaEnd = metaEnd := by
  rw [PipelineWork.metaEnd, h]

theorem building_metaEnd_built {id : Nat} {work : BuildWork} {sc sc' : Scratch}
    {log : Nat → TensorMeta} {parts : BuiltTrace}
    (h : buildTraceFrom sc log work.ops = .built sc' parts) :
    (PipelineWork.build id work).metaEnd = parts.maxMetaEnd := by
  obtain ⟨scan, hscan, hend⟩ := buildTraceFrom_metaEnd h
  rw [PipelineWork.metaEnd, hscan, hend]

/-! ### What each step does to the items -/

/-- No item with metadata is lost without a move of the tail. -/
def Flows (p p' : Pipeline) : Prop :=
  (p'.log = p.log ∧ ∀ metaEnd ∈ p.inFlight, 0 < metaEnd → metaEnd ∈ p'.inFlight) ∨
    (p'.log.head = p.log.head ∧ p.log.tail < p'.log.tail)

theorem flows_of_subset (hlog : p'.log = p.log) (hmes : p.messages ⊆ p'.messages)
    (hunb : p.unbuilt ⊆ p'.unbuilt) : Flows p p' := by
  refine .inl ⟨hlog, fun metaEnd h _ => ?_⟩
  rcases mem_append.mp h with h | h
  · exact mem_append_left _ (map_subset _ hmes h)
  · exact mem_append_right _ (map_subset _ hunb h)

theorem flows_of_send {w : PipelineWork} {works : List PipelineWork} (ms : List PublishMessage)
    (hunb : p.unbuilt = w :: works)
    (hw : 0 < w.metaEnd → w.metaEnd ∈ ms.map PublishMessage.metaEnd) (hlog : p'.log = p.log)
    (hmes : p'.messages = p.messages ++ ms) (hwor : p'.unbuilt = works) : Flows p p' := by
  refine .inl ⟨hlog, fun metaEnd hmem hpos => ?_⟩
  rw [inFlight, hunb] at hmem
  rw [inFlight, hmes, hwor, map_append]
  rcases mem_append.mp hmem with hmem | hmem
  · exact mem_append_left _ (mem_append_left _ hmem)
  · rcases mem_cons.mp hmem with rfl | hmem
    · exact mem_append_left _ (mem_append_right _ (hw hpos))
    · exact mem_append_right _ hmem

theorem flows_of_next {m : PublishMessage} (hmes : p.messages = m :: p'.messages)
    (hm : m.metaEnd = 0) (hlog : p'.log = p.log) (hunb : p'.unbuilt = p.unbuilt) :
    Flows p p' := by
  refine .inl ⟨hlog, fun metaEnd hmem hpos => ?_⟩
  rw [inFlight, hmes, map_cons, hm] at hmem
  rcases mem_cons.mp hmem with rfl | hmem
  · exact absurd hpos (lt_irrefl 0)
  · rwa [← hunb] at hmem

theorem Moves.flows (h : Moves p p') : Flows p p' := by
  cases h with
  | reset h => exact flows_of_subset rfl (List.Subset.refl _) (List.Subset.refl _)
  | detect huns h id =>
    exact flows_of_subset rfl (List.Subset.refl _) (subset_append_left _ _)
  | commit count => exact flows_of_subset rfl (List.Subset.refl _) (subset_append_left _ _)
  | @pass count works hunb =>
    exact flows_of_send [.commit count] hunb (fun hpos => absurd hpos (lt_irrefl 0)) rfl rfl
      rfl
  | @overflow id metaEnd work works hunb h =>
    refine flows_of_send (if metaEnd > 0 then [.release metaEnd] else []) hunb
      (fun hpos => ?_) rfl rfl rfl
    rw [building_metaEnd_error h] at hpos ⊢
    rw [if_pos hpos]
    exact mem_singleton_self _
  | @build id work works scratch parts hunb h =>
    refine flows_of_send [.region id parts work.epoch] hunb (fun _ => ?_) rfl rfl rfl
    rw [building_metaEnd_built h]
    exact mem_singleton_self _
  | committed hmes => exact flows_of_next hmes rfl rfl rfl
  | release hmes h =>
    obtain ⟨hzero, rfl⟩ | ⟨hlt, rfl⟩ := MetaLog.release_cases h
    · exact flows_of_next hmes hzero rfl rfl
    · exact .inr ⟨rfl, hlt⟩

def Filled (p : Pipeline) : Prop := p.log.head = p.log.tail + metaLogCapacity

theorem Flows.releasable (hflows : Flows p p') (hlive : p.log.head ≤ p.log.tail + metaLogCapacity)
    (h : p.Filled → p.Releasable) (hfil : p'.Filled) : p'.Releasable := by
  unfold Filled at hfil
  rcases hflows with ⟨hlog, hitems⟩ | ⟨hhead, htail⟩
  · rw [hlog] at hfil
    obtain ⟨metaEnd, hmem, hpos⟩ := h hfil
    exact ⟨metaEnd, hitems metaEnd hmem hpos, hpos⟩
  · omega

theorem recordOp_releasable {entry : RingEntry} {metas : List TensorMeta}
    {scopeHash callsiteHash : Nat} (hkeeps : p.log.Keeps p.ledger.appended)
    (h : p.Filled → p.Releasable)
    (hguard : p.log.head + metas.length = p.log.tail + metaLogCapacity → p.Releasable)
    (hrec : p.recordOp entry metas scopeHash callsiteHash = .ok p') (hfil : p'.Filled) :
    p'.Releasable := by
  obtain ⟨⟨log, index⟩, hlog, hrec⟩ := bind_ok hrec
  have happ := MetaLog.tryAppend_appended hkeeps.cached_le hkeeps.tail_le hlog
  cases hrec
  have hfil : log.head = log.tail + metaLogCapacity := hfil
  rw [happ.tail_eq] at hfil
  rcases happ.answer with ⟨-, hhead, -⟩ | ⟨-, -, -, hhead, -⟩
  · exact h (hhead.symm.trans hfil)
  · exact hguard (hhead.symm.trans hfil)

/-- **Moves** keep an item with metadata on its way while the log is full. -/
theorem Changes.releasable (h : Changes p p') (hlive : p.log.head ≤ p.log.tail + metaLogCapacity)
    (hp : p.Filled → p.Releasable) : p'.Filled → p'.Releasable := by
  have hall := h.keeps
    (fun q => q.log.head ≤ q.log.tail + metaLogCapacity ∧ (q.Filled → q.Releasable))
    ⟨hlive, hp⟩ fun hmov hq => ⟨?_, hmov.flows.releasable hq.1 hq.2⟩
  · exact hall.2
  · rcases hmov.flows with ⟨hlog, -⟩ | ⟨hhead, htail⟩
    · rw [hlog]
      exact hq.1
    · omega

/-- **A guarded action** keeps an item with metadata on its way while the log is full. -/
theorem step_releasable {a : PipelineAction} (hord : p.InOrder) (h : p.Filled → p.Releasable)
    (ha : p.Guarded a) (hstep : p.step a = .ok p') : p'.Filled → p'.Releasable := by
  obtain ⟨past, segment, claimed, built, cut, ho⟩ := hord
  obtain ⟨entry, metas, scopeHash, callsiteHash, rfl, hrec⟩ | hchan := step_changes hstep
  · exact recordOp_releasable ho.keeps h ha.2 hrec
  · exact hchan.releasable ho.keeps.live_le h

/-! ### Items that the stages can handle -/

/-- Work items are short enough for the planner, and the regions of the messages have a
plan. -/
structure Sound (p : Pipeline) : Prop where
  scratch : p.scratch.Reachable
  works : ∀ id work, .build id work ∈ p.unbuilt → work.ops.length ≤ maxDeathOp
  messages : ∀ id parts epoch, .region id parts epoch ∈ p.messages →
    ∀ owner, ∃ plan, computeMemoryPlan owner parts.slots = some plan

end Pipeline

theorem DetectStage.detectOp_length {st st' : DetectStage} {op : RecordedOp} {length : Nat}
    {work : BuildWork} (h : st.detectOp op = .ok (st', some (length, some work))) :
    work.ops.length ≤ maxDeathOp := by
  obtain ⟨pending, -, h⟩ := bind_ok h
  obtain ⟨⟨detector, boundary⟩, -, h⟩ := bind_ok h
  dsimp only at h
  split at h
  · obtain ⟨⟨mid, work'⟩, hprep, h⟩ := bind_ok h
    obtain ⟨-, hwork⟩ := Prod.mk.inj (Except.ok.inj h)
    cases hwork
    obtain ⟨iterations, -, hprep⟩ := bind_ok hprep
    obtain ⟨-, hwork⟩ := Prod.mk.inj (Except.ok.inj hprep)
    split at hwork
    · cases hwork
      have htot : wrap32 pending.count < 2 ^ 32 := Nat.mod_lt _ (by decide)
      have hK : detectorK = 5 := rfl
      have hmax : maxDeathOp = 2 ^ 32 - 4 := rfl
      simp only [length_map, length_range]
      omega
    · cases hwork
  · cases h

namespace Pipeline
variable {p p' : Pipeline}

theorem sound_queues : p.queues.Sound ↔ p.Sound := by
  constructor <;> intro h <;> exact ⟨h.scratch, h.works, h.messages⟩

theorem Sound.moves (hp : p.Sound) (h : Moves p p') : p'.Sound := by
  have hrest : ∀ {w works}, p.unbuilt = w :: works → ∀ id work, .build id work ∈ works →
      work.ops.length ≤ maxDeathOp := by
    intro w works hunb id work hw
    exact hp.works id work (hunb ▸ mem_cons_of_mem w hw)
  have hnext : ∀ {m publishes}, p.messages = m :: publishes →
      ∀ id parts epoch, .region id parts epoch ∈ publishes →
        ∀ owner, ∃ plan, computeMemoryPlan owner parts.slots = some plan := by
    intro m publishes hmes id parts epoch hm
    exact hp.messages id parts epoch (hmes ▸ mem_cons_of_mem m hm)
  cases h with
  | reset h => exact ⟨hp.scratch, hp.works, hp.messages⟩
  | @detect op ring detect answer huns h id =>
    refine ⟨hp.scratch, fun id' work hw => ?_, hp.messages⟩
    rcases mem_append.mp (show _ ∈ p.unbuilt ++ worksOf id answer from hw) with hw | hw
    · exact hp.works id' work hw
    · obtain ⟨length, work', rfl, hbuild⟩ := mem_worksOf.mp hw
      cases hbuild
      exact DetectStage.detectOp_length h
  | commit count =>
    refine ⟨hp.scratch, fun id work hw => hp.works id work ?_, hp.messages⟩
    simpa [unbuilt, queues] using hw
  | pass hunb =>
    refine ⟨hp.scratch, hrest hunb, fun id parts epoch hm => hp.messages id parts epoch ?_⟩
    simpa [Pipeline.messages, queues] using hm
  | @overflow id metaEnd work works hunb h =>
    refine ⟨hp.scratch, hrest hunb, fun id parts epoch hm => hp.messages id parts epoch ?_⟩
    by_cases hend : metaEnd > 0 <;> simpa [Pipeline.messages, queues, hend] using hm
  | @build id work works scratch parts hunb h =>
    refine ⟨.built hp.scratch h, hrest hunb, fun id' parts' epoch hm => ?_⟩
    rcases mem_append.mp (show _ ∈ p.messages ++ [.region id parts work.epoch] from hm)
      with hm | hm
    · exact hp.messages id' parts' epoch hm
    · obtain ⟨-, rfl, -⟩ := PublishMessage.region.inj (mem_singleton.mp hm)
      have hlen := hp.works id work (hunb ▸ mem_cons_self)
      exact fun owner => builtTrace_planned owner hp.scratch h hlen
  | committed hmes | release hmes => exact ⟨hp.scratch, hp.works, hnext hmes⟩

theorem Sound.step {a : PipelineAction} (hp : p.Sound) (h : p.step a = .ok p') : p'.Sound := by
  obtain ⟨entry, metas, scopeHash, callsiteHash, rfl, h⟩ | h := step_changes h
  · obtain ⟨⟨log, index⟩, -, h⟩ := bind_ok h
    cases h
    exact ⟨hp.scratch, hp.works, hp.messages⟩
  · exact sound_queues.mp (h.keeps Sound (sound_queues.mpr hp) fun hmov hq => hq.moves hmov)

/-! ### The stages empty their channels -/

theorem laid_numTensors {lo hi : Nat} {ops : List RecordedOp} (h : opSpan.Laid lo ops hi) :
    lo + (ops.map RecordedOp.numTensors).sum ≤ hi := by
  induction h with
  | nil h => exact h
  | cons hop hrest ih =>
    rename_i lo mid hi op ops
    rw [map_cons, sum_cons]
    cases hmeta : op.metaIndex <;> simp only [opSpan, RecordedOp.Fits, hmeta] at hop <;>
      simp only [RecordedOp.numTensors, hmeta] <;> omega

/-- **A build of a reachable state returns.** -/
theorem InOrder.buildNext_total (hp : p.InOrder) : ∃ p', p.buildNext = .ok p' := by
  unfold buildNext
  split
  · exact ⟨_, rfl⟩
  · exact ⟨_, rfl⟩
  · rename_i id work hbuil
    obtain ⟨past, segment, claimed, built, cut, ho⟩ := hp
    cases hscan : scanTrace work.ops with
    | error metaEnd =>
      have hbuild : buildTraceFrom p.scratch p.log.record work.ops = .overflow metaEnd := by
        rw [buildTraceFrom, hscan]
      rw [hbuild]
      exact ⟨_, rfl⟩
    | ok scan =>
      have hlive := ho.keeps.live_le
      have hcap : metaLogCapacity = 2 ^ 20 := rfl
      have hlaid := ho.works
      rw [unbuilt_building hbuil] at hlaid
      obtain ⟨mid, hwork, hrest⟩ := hlaid.of_cons
      have hten := laid_numTensors hwork
      have hlo := ho.messages.le
      have hhi := hrest.le.trans ho.ops.le
      have hrun : scan.maxMetaEnd - scan.firstMeta.getD 0 ≤ metaLogCapacity := by
        rcases ho.building_scan (unbuilt_building hbuil) hscan with ⟨-, hzero⟩ |
          ⟨first, hfir, hge, hlt, hle⟩
        · omega
        · rw [hfir, Option.getD_some]
          omega
      obtain ⟨scratch, parts, hbuild⟩ := buildTraceFrom_total p.scratch p.log.record hscan hrun
        (show (work.ops.map RecordedOp.numTensors).sum < 2 ^ 32 by omega)
      rw [hbuild]
      exact ⟨_, rfl⟩

variable {rest : List PublishMessage}

theorem InOrder.releaseMetaLog_total (hp : p.InOrder) {q : Pipeline} {m : PublishMessage}
    (hmes : p.messages = m :: rest) (hlog : q.log = p.log) :
    ∃ q', q.releaseMetaLog m.metaEnd = .ok q' := by
  obtain ⟨past, segment, claimed, built, cut, ho⟩ := hp
  obtain ⟨log, hrel, -⟩ := ho.keeps.release (ho.release_within hmes)
  rw [← hlog] at hrel
  exact ⟨_, bind_of_ok hrel⟩

theorem InOrder.takePublish_total (hp : p.InOrder) : ∃ p', p.takePublish = .ok p' := by
  unfold takePublish
  split
  · exact ⟨_, rfl⟩
  · rename_i metaEnd publishes hchec hpub
    exact hp.releaseMetaLog_total (m := .release metaEnd)
      ((messages_unchecked hchec).trans hpub) rfl
  · rename_i id parts epoch publishes hchec hpub
    split
    · exact hp.releaseMetaLog_total (m := .region id parts epoch)
        ((messages_unchecked hchec).trans hpub) rfl
    · exact ⟨_, rfl⟩
  · exact ⟨_, rfl⟩

/-- **A publish of a reachable state returns**: its region has a plan. -/
theorem InOrder.publishRegion_total (hp : p.InOrder) (hsound : p.Sound) (marks : RegionMarks) :
    ∃ p', p.publishRegion marks = .ok p' := by
  unfold publishRegion
  split
  · exact ⟨_, rfl⟩
  · rename_i id parts epoch resetEpoch hchec
    have hmes : p.messages = .region id parts epoch :: p.publishes := by
      rw [messages, hchec]
      rfl
    dsimp only
    split
    · exact hp.releaseMetaLog_total (m := .region id parts epoch) hmes rfl
    · obtain ⟨q, hq⟩ := hp.releaseMetaLog_total (m := .region id parts epoch) hmes
        (q := ({ p with checked := none } : Pipeline).settle id (.published epoch resetEpoch)) rfl
      obtain ⟨plan, hplan⟩ : ∃ plan,
          ({ p with checked := none } : Pipeline).planRegion parts = .ok plan := by
        unfold planRegion
        split
        · exact ⟨none, rfl⟩
        · obtain ⟨plan, hplan⟩ := hsound.messages id parts epoch
            (hmes ▸ mem_cons_self) p.owner
          rw [hplan]
          exact ⟨some plan, rfl⟩
      exact ⟨_, (bind_of_ok hplan).trans (bind_of_ok hq)⟩

/-- The steps that the build stage and the publish stage have before them. -/
def rank (p : Pipeline) : Nat :=
  4 * p.works.length + 3 * p.building.toList.length + 2 * p.publishes.length +
    p.checked.toList.length

theorem releaseMetaLog_rank {metaEnd : Nat} (h : p.releaseMetaLog metaEnd = .ok p') :
    p'.rank = p.rank := by
  obtain ⟨log, -, rfl⟩ := releaseMetaLog_cases h
  rfl

theorem buildNext_rank {w : PipelineWork} (hbuil : p.building = some w)
    (h : p.buildNext = .ok p') : p'.rank < p.rank := by
  have hone : p.building.toList.length = 1 := by rw [hbuil]; rfl
  have hsend : ∀ {q : Pipeline}, q.works = p.works → q.building = none → q.checked = p.checked →
      q.publishes.length ≤ p.publishes.length + 1 → q.rank < p.rank := by
    intro q hwor hnone hchec hpub
    unfold rank
    rw [hwor, hnone, hchec, Option.toList_none, length_nil]
    omega
  obtain ⟨hidle, -⟩ | ⟨count, -, rfl⟩ | ⟨id, work, metaEnd, -, -, rfl⟩ |
    ⟨id, work, scratch, parts, -, -, rfl⟩ := buildNext_cases h
  · exact nomatch hidle.symm.trans hbuil
  · exact hsend rfl rfl rfl (le_of_eq length_append)
  · refine hsend rfl rfl rfl ?_
    change (if metaEnd > 0 then p.publishes ++ [.release metaEnd] else p.publishes).length ≤ _
    split
    · exact le_of_eq length_append
    · exact Nat.le_succ _
  · exact hsend rfl rfl rfl (le_of_eq length_append)

theorem takePublish_rank {m : PublishMessage}
    (hchec : p.checked = none) (hpub : p.publishes = m :: rest)
    (h : p.takePublish = .ok p') : p'.rank < p.rank := by
  have hsend : ∀ {q : Pipeline}, q.works = p.works → q.building = p.building →
      q.checked.toList.length ≤ 1 → q.publishes = rest → q.rank < p.rank := by
    intro q hwor hbuil hone hrest
    unfold rank
    rw [hwor, hbuil, hrest, hpub, length_cons]
    omega
  have hnone : p.checked.toList.length ≤ 1 := by
    rw [hchec]
    exact Nat.zero_le 1
  obtain ⟨hidle, -⟩ | ⟨count, publishes, -, hnext, rfl⟩ | ⟨metaEnd, publishes, -, hnext, h⟩ |
    ⟨id, parts, epoch, publishes, -, hnext, ⟨-, h⟩ | ⟨-, rfl⟩⟩ := takePublish_cases h
  · rcases hidle with hidle | hidle
    · exact absurd hchec hidle
    · exact nomatch hidle.symm.trans hpub
  · exact hsend rfl rfl hnone (cons.inj (hnext.symm.trans hpub)).2
  · rw [releaseMetaLog_rank h]
    exact hsend rfl rfl hnone (cons.inj (hnext.symm.trans hpub)).2
  · rw [releaseMetaLog_rank h]
    exact hsend rfl rfl hnone (cons.inj (hnext.symm.trans hpub)).2
  · exact hsend rfl rfl (Nat.le_refl 1) (cons.inj (hnext.symm.trans hpub)).2

theorem publishRegion_rank {marks : RegionMarks} {c : Nat × BuiltTrace × Nat × Nat}
    (hchec : p.checked = some c) (h : p.publishRegion marks = .ok p') : p'.rank < p.rank := by
  have hsend : ∀ {q : Pipeline}, q.works = p.works → q.building = p.building →
      q.checked = none → q.publishes = p.publishes → q.rank < p.rank := by
    intro q hwor hbuil hnone hpub
    unfold rank
    rw [hwor, hbuil, hnone, hpub, hchec]
    exact lt_add_one _
  obtain ⟨hidle, -⟩ | ⟨id, parts, epoch, resetEpoch, -, ⟨-, store, h⟩ | ⟨q, store, hrel, rfl⟩⟩ :=
    publishRegion_cases h
  · exact nomatch hidle.symm.trans hchec
  · rw [releaseMetaLog_rank h]
    exact hsend rfl rfl rfl rfl
  · have hrank : q.rank < p.rank := by
      rw [releaseMetaLog_rank hrel]
      exact hsend rfl rfl rfl rfl
    exact hrank

/-- **While an item is on its way, some stage has a step that brings it nearer.** -/
theorem advance (hord : p.InOrder) (hsound : p.Sound) (h : p.Releasable) :
    ∃ a p', a.Promised ∧ p.step a = .ok p' ∧ p'.rank < p.rank ∧ Changes p p' := by
  cases hchec : p.checked with
  | some c =>
    obtain ⟨p', hstep⟩ := hord.publishRegion_total hsound {}
    exact ⟨.publish {}, p', trivial, hstep, publishRegion_rank hchec hstep,
      publishRegion_changes hstep⟩
  | none =>
    cases hpub : p.publishes with
    | cons m rest =>
      obtain ⟨p', hstep⟩ := hord.takePublish_total
      exact ⟨.takePublish, p', trivial, hstep, takePublish_rank hchec hpub hstep,
        takePublish_changes hstep⟩
    | nil =>
      cases hbuil : p.building with
      | some w =>
        obtain ⟨p', hstep⟩ := hord.buildNext_total
        exact ⟨.build, p', trivial, hstep, buildNext_rank hbuil hstep, buildNext_changes hstep⟩
      | none =>
        refine ⟨.takeWork, p.takeWork, trivial, rfl, ?_, takeWork_changes p⟩
        obtain ⟨hbusy | hwor, -⟩ | ⟨w, works, -, hwor, hnext⟩ := takeWork_cases p
        · exact absurd hbuil hbusy
        · -- nothing is on its way
          obtain ⟨metaEnd, hmem, -⟩ := h
          rw [inFlight, messages, unbuilt, hchec, hpub,
            hbuil, hwor] at hmem
          cases hmem
        · rw [hnext]
          unfold rank
          simp only [hwor, hbuil, length_cons, Option.toList_some, Option.toList_none, length_nil]
          omega

theorem progress_of_room (hord : p.InOrder) (h : ¬ p.Filled) : p.Progress := by
  obtain ⟨past, segment, claimed, built, cut, ho⟩ := hord
  have hlive := ho.keeps.live_le
  obtain ⟨log, index, happ⟩ : ∃ log index, p.log.tryAppend [default] = .ok (log, index) :=
    MetaLog.tryAppend_total ho.keeps.cached_le (by decide)
  refine ⟨[], p, default, log, p.log.head, rfl, ?_⟩
  rcases (MetaLog.tryAppend_appended ho.keeps.cached_le ho.keeps.tail_le happ).answer with
    ⟨-, -, -, hnil | hfull⟩ | ⟨rfl, -⟩
  · cases hnil
  · unfold Filled at h
    rw [length_singleton] at hfull
    omega
  · exact happ

theorem Progress.of_step {a : PipelineAction} (h : p'.Progress) (hstep : p.step a = .ok p') :
    p.Progress := by
  obtain ⟨actions, q, record, log, start, hrun, happ⟩ := h
  exact ⟨a :: actions, q, record, log, start, (foldlM_cons_ok hstep).trans hrun, happ⟩

/-- **A full log with an item on its way** makes progress. -/
theorem progress_of_releasable {n : Nat} (hord : p.InOrder) (hsound : p.Sound)
    (h : p.Filled → p.Releasable) (hn : p.rank < n) : p.Progress := by
  induction n generalizing p with
  | zero => exact absurd hn (Nat.not_lt_zero _)
  | succ n ih =>
    by_cases hfil : p.Filled
    · obtain ⟨a, p', ha, hstep, hrank, hchan⟩ := advance hord hsound (h hfil)
      have hlive : p.log.head ≤ p.log.tail + metaLogCapacity := le_of_eq hfil
      refine Progress.of_step ?_ hstep
      exact ih (hord.step ha hstep) (hsound.step hstep) (hchan.releasable hlive h) (by omega)
    · exact progress_of_room hord hfil

theorem guarded_run {owner : PlanOwner} {actions : List PipelineAction}
    (hguard : AllSteps step Guarded { owner } actions)
    (h : runPipeline { owner } actions = .ok p) :
    p.InOrder ∧ p.Sound ∧ (p.Filled → p.Releasable) := by
  refine foldlM_allSteps (fun p : Pipeline => p.InOrder ∧ p.Sound ∧ (p.Filled → p.Releasable))
    ⟨start_inOrder owner, ⟨.init, nofun, nofun⟩, fun hfil => ?_⟩ ?_ hguard h
  · exact absurd hfil (show ¬ 0 = 0 + metaLogCapacity by decide)
  · rintro q a q' ha ⟨hord, hsound, hitems⟩ hstep
    exact ⟨hord.step ha.1 hstep, hsound.step hstep, step_releasable hord hitems ha hstep⟩

end Pipeline

/-- **Progress of guarded runs.**  In a run where every append that fills the log finds
a message or a work item with metadata to release, every state has a continuation after
which an append of one record succeeds. -/
theorem log_progresses {owner : PlanOwner} {actions : List PipelineAction} {p : Pipeline}
    (hguard : AllSteps Pipeline.step Pipeline.Guarded { owner } actions)
    (h : runPipeline { owner } actions = .ok p) : p.Progress := by
  obtain ⟨horder, hsound, hitems⟩ := Pipeline.guarded_run hguard h
  exact Pipeline.progress_of_releasable horder hsound hitems (lt_add_one _)

/-- A run that releases the metadata of two regions. -/
theorem log_progresses_body : ∃ p, AllSteps Pipeline.step Pipeline.Guarded {} (bodyRun 1 20) ∧
    runPipeline {} (bodyRun 1 20) = .ok p ∧ p.Progress := by
  have hguard : AllSteps Pipeline.step Pipeline.Guarded {} (bodyRun 1 20) := by decide +kernel
  obtain ⟨p, hrun, -⟩ : ∃ p, runPipeline {} (bodyRun 1 20) = .ok p ∧ p.log.tail = 15 :=
    ok_of_eval (by decide +kernel)
  exact ⟨p, hguard, hrun, log_progresses hguard hrun⟩

end Crucible
