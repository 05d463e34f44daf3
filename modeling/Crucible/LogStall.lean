import Crucible.PipelineOrder

/-! # A log that stays full

The tail of the log moves only when a work item whose ops have metadata reaches the
publish stage.  If the log is full and no op or message with metadata is left in the pipeline,
every later op is recorded without an index, so every later item releases nothing and the log
stays full for good.
-/
namespace Crucible
open List

/-! ### A dry pipeline -/

theorem laid_of_none {ops : List RecordedOp} (h : ∀ op ∈ ops, op.metaIndex = none) (n : Nat) :
    opSpan.Laid n ops n := by
  induction ops with
  | nil => exact .nil (Nat.le_refl n)
  | cons op ops ih =>
    have hop : opSpan.fits n n op := by
      simp only [opSpan, RecordedOp.Fits, h op mem_cons_self]
      exact Nat.le_refl n
    exact .cons hop (ih fun o ho => h o (mem_cons_of_mem op ho))

namespace Pipeline

/-- After some continuation, an append of one record succeeds. -/
def Progress (p : Pipeline) : Prop :=
  ∃ actions p' record log start, runPipeline p actions = .ok p' ∧
    p'.log.tryAppend [record] = .ok (log, some start)

/-- The log is full, and no metadata is left in the pipeline: no message releases any, and
what lies behind the messages starts at the head. -/
structure Dry (p : Pipeline) : Prop where
  full : p.log.head = p.log.tail + metaLogCapacity
  messages : ∀ m ∈ p.messages, m.metaEnd = 0
  order : ∃ past segment claimed built cut, p.Ordered past segment claimed built cut ∧
    p.log.head ≤ built

variable {p p' : Pipeline}

variable {metas : List TensorMeta}

theorem Dry.tryAppend (hp : p.Dry) {log : MetaLog} {index : Option Nat}
    (h : p.log.tryAppend metas = .ok (log, index)) :
    index = none ∧ log.head = p.log.head ∧ log.tail = p.log.tail := by
  have hfull := hp.full
  obtain ⟨past, segment, claimed, built, cut, ho, -⟩ := hp.order
  obtain ⟨htail, -, ⟨hnone, hhead, -⟩ | ⟨-, hne, hroom, -⟩⟩ :=
    MetaLog.tryAppend_appended ho.keeps.cached_le ho.keeps.tail_le h
  · exact ⟨hnone, hhead, htail⟩
  · have := length_pos_iff.mpr hne
    omega

theorem Dry.recordOp {entry : RingEntry} {scopeHash callsiteHash : Nat}
    (hp : p.Dry) (h : p.recordOp entry metas scopeHash callsiteHash = .ok p') : p'.Dry := by
  obtain ⟨past, segment, claimed, built, cut, ho, hbuilt⟩ := hp.order
  have ho' := ho.recordOp (fun hlt => absurd hp.full hlt.ne) h
  obtain ⟨⟨log, index⟩, hlog, h⟩ := bind_ok h
  obtain ⟨-, hhead, htail⟩ := hp.tryAppend hlog
  cases h
  exact ⟨by rw [hhead, htail]; exact hp.full, hp.messages, past, segment, claimed, built, cut, ho',
    hhead ▸ hbuilt⟩

theorem dry_queues : p.queues.Dry ↔ p.Dry := by
  constructor <;> rintro ⟨hfull, hmes, past, segment, claimed, built, cut, ho, hbuilt⟩ <;>
    exact ⟨hfull, hmes, past, segment, claimed, built, cut,
      ⟨ho.keeps, ho.follows, ho.messages, ho.works, ho.ops⟩, hbuilt⟩

/-- **No move** brings metadata back into a dry pipeline. -/
theorem Dry.moves (hp : p.Dry) (h : Moves p p') : p'.Dry := by
  obtain ⟨past, segment, claimed, built, cut, ho, hbuilt⟩ := hp.order
  obtain ⟨past', segment', claimed', built', cut', ho', hle, hmem⟩ := ho.moves h
  have hlog : p'.log = p.log := by
    cases h with
    | @release m publishes log hmes h =>
      obtain ⟨-, heq⟩ | ⟨hlt, -⟩ := MetaLog.release_cases h
      · exact heq
      · exact absurd hlt (by rw [hp.messages m (by simp [hmes])]; exact Nat.not_lt_zero _)
    | reset _ | detect _ _ _ | commit _ | pass _ | overflow _ _ | build _ _ | committed _ => rfl
  refine ⟨hlog ▸ hp.full, fun m hm => ?_, past', segment', claimed', built', cut', ho',
    hlog ▸ hbuilt.trans hle⟩
  rcases hmem m hm with hold | hzero | hlt
  · exact hp.messages m hold
  · exact hzero
  · -- the message would release records past the head
    obtain ⟨-, hzero | ⟨-, hend⟩⟩ := ho'.messages.mem hm
    · exact hzero
    · have hhead := ho'.works.le.trans ho'.ops.le
      rw [hlog] at hhead
      omega

theorem Dry.step {a : PipelineAction} (hp : p.Dry) (h : p.step a = .ok p') : p'.Dry := by
  obtain ⟨entry, metas, scopeHash, callsiteHash, rfl, h⟩ | h := step_changes h
  · exact hp.recordOp h
  · exact dry_queues.mp (h.keeps Dry (dry_queues.mpr hp) fun hmov hq => hq.moves hmov)

/-- **A dry pipeline stays stuck**: no continuation makes room in the log. -/
theorem Dry.stuck (hp : p.Dry) : ¬ p.Progress := by
  rintro ⟨actions, p', record, log, start, hrun, happ⟩
  have hp' : p'.Dry := foldlM_inv Pipeline.Dry hp (fun _ _ _ _ hq hstep => hq.step hstep) hrun
  obtain ⟨hnone, -⟩ := hp'.tryAppend happ
  cases hnone

end Pipeline

/-! ### A run into a dry pipeline -/

def recordAll (entries : List RingEntry) : List PipelineAction :=
  entries.map fun e => .record e (replicate (e.numInputs + e.numOutputs) default) 0 0

/-- The ops of the entries, when their records start at `head`. -/
def recordedFrom (head : Nat) : List RingEntry → List RecordedOp
  | [] => []
  | e :: entries =>
    let tensors := e.numInputs + e.numOutputs
    { entry := e, metaIndex := if tensors = 0 then none else some head } ::
      recordedFrom (head + tensors) entries

def tensorCount (entries : List RingEntry) : Nat :=
  (entries.map fun e => e.numInputs + e.numOutputs).sum

namespace Pipeline

/-- Ops have been recorded, with `head` records, and nothing else has happened. -/
def Recorded (p : Pipeline) (ops : List RecordedOp) (head : Nat) : Prop :=
  ∃ log appended, p = { log, ring := ops, ledger := { appended } } ∧ log.head = head ∧
    log.tail = 0 ∧ log.cachedTail = 0

variable {ops : List RecordedOp} {p : Pipeline}

theorem Recorded.recordOp {head : Nat}
    (hp : p.Recorded ops head) (entry : RingEntry) (metas : List TensorMeta)
    (scopeHash callsiteHash : Nat) (hroom : head + metas.length ≤ metaLogCapacity)
    (hring : ops.length < traceRingCapacity) :
    ∃ p', p.recordOp entry metas scopeHash callsiteHash = .ok p' ∧ p'.Recorded
        (ops ++ [⟨entry, if metas.length = 0 then none else some head, scopeHash, callsiteHash⟩])
        (head + metas.length) := by
  obtain ⟨log, appended, rfl, rfl, htail, hcac⟩ := hp
  have hlen : ¬ metaLogCapacity < metas.length := by omega
  have hview : ¬ log.head - log.cachedTail + metas.length > metaLogCapacity := by omega
  by_cases hnil : metas.length = 0
  · have happ : log.tryAppend metas = .ok (log, none) := by
      rw [MetaLog.tryAppend, if_neg hlen, if_pos hnil]
    refine ⟨_, bind_of_ok happ, log, appended, ?_, by omega, htail, hcac⟩
    simp only [if_pos hring, if_pos hnil]
    rfl
  · have happ : log.tryAppend metas = .ok (log.store metas) := by
      rw [MetaLog.tryAppend, if_neg hlen, if_neg hnil, if_neg hview]
    refine ⟨_, bind_of_ok happ, (log.store metas).1, appended ++ metas, ?_, rfl, htail, hcac⟩
    simp only [if_pos hring, if_neg hnil]
    rfl

theorem Recorded.recordAll {head : Nat} (hp : p.Recorded ops head) (entries : List RingEntry)
    (hroom : head + tensorCount entries ≤ metaLogCapacity)
    (hring : ops.length + entries.length ≤ traceRingCapacity) :
    ∃ p', runPipeline p (recordAll entries) = .ok p' ∧
      p'.Recorded (ops ++ recordedFrom head entries) (head + tensorCount entries) := by
  induction entries generalizing p ops head with
  | nil => exact ⟨p, rfl, by simpa [recordedFrom, tensorCount] using hp⟩
  | cons e entries ih =>
    have hcount : tensorCount (e :: entries) =
        e.numInputs + e.numOutputs + tensorCount entries := sum_cons
    rw [length_cons] at hring
    obtain ⟨q, hq, hrec⟩ := hp.recordOp e
      (replicate (e.numInputs + e.numOutputs) default) 0 0
      (by rw [length_replicate]; omega) (by omega)
    rw [length_replicate] at hrec
    obtain ⟨p', hp', hfin⟩ := ih hrec (by omega)
      (by rw [length_append, length_singleton]; omega)
    refine ⟨p', ?_, ?_⟩
    · exact (foldlM_cons_ok hq).trans hp'
    · rw [hcount, ← add_assoc]
      rwa [append_assoc] at hfin

theorem detect_quiet {st : DetectStage} {count : Nat}
    (hres : p.resetRequested = false) (hbat : p.batch = some (ops, count))
    (h : runDetect p.detect (ops.map .op) = .ok (st, replicate ops.length none)) :
    runPipeline p (replicate ops.length .detect) =
      .ok { p with detect := st, batch := some ([], count) } := by
  induction ops generalizing p with
  | nil =>
    cases h
    rw [← hbat]
    rfl
  | cons op ops ih =>
    obtain ⟨⟨mid, answer⟩, hevent, h⟩ := bind_ok h
    obtain ⟨⟨final, answers⟩, hrest, h⟩ := bind_ok h
    obtain ⟨rfl, hans⟩ := Prod.mk.inj (Except.ok.inj h)
    cases hans
    have hcheck : p.checkReset = .ok p := by
      rw [Pipeline.checkReset, hres]
      rfl
    have hnext : p.step .detect = .ok { p with detect := mid, batch := some (ops, count) } := by
      simp only [Pipeline.step, Pipeline.detectNext, hbat]
      exact (bind_of_ok hcheck).trans (bind_of_ok hevent)
    exact (foldlM_cons_ok hnext).trans (ih (by exact hres) rfl hrest)

end Pipeline

/-- Nine ops whose tensors fill the log, and twenty ops without tensors.  No key comes
twice, so no boundary does. -/
def stallEntries : List RingEntry :=
  (range 29).map fun i =>
    { schemaHash := i
      shapeHash := 0
      numInputs := if i < 8 then 2 ^ 16 - 1 else 0
      numOutputs := if i < 8 then 2 ^ 16 - 1 else if i = 8 then 16 else 0 }

/-- The ops are recorded and go through the detect stage in one batch. -/
def stallRun : List PipelineAction :=
  recordAll stallEntries ++ ([.drain 29, .takeBatch] ++ replicate 29 .detect)

theorem stallRun_promised : ∀ a ∈ stallRun, a.Promised := by
  intro a ha
  simp only [stallRun, recordAll, mem_append, mem_map, mem_cons, not_mem_nil,
    or_false, mem_replicate] at ha
  rcases ha with ⟨e, -, rfl⟩ | (rfl | rfl) | ⟨-, rfl⟩
  · exact .inr length_replicate
  · trivial
  · trivial
  · trivial

theorem stallEntries_detect :
    ∃ st, runDetect {} ((recordedFrom 0 stallEntries).map .op) = .ok (st, replicate 29 none) ∧
      ∀ op ∈ st.pending.toList, op.metaIndex = none := by
  obtain ⟨⟨st, answers⟩, hrun, heval⟩ : ∃ r,
      runDetect {} ((recordedFrom 0 stallEntries).map .op) = .ok r ∧
      (r.2, r.1.pending.toList.all fun op => op.metaIndex.isNone) =
        (replicate 29 none, true) := ok_of_eval (by decide +kernel)
  obtain ⟨hans, hall⟩ := Prod.mk.inj heval
  refine ⟨st, hans ▸ hrun, fun op hop => ?_⟩
  exact Option.isNone_iff_eq_none.mp (all_eq_true.mp hall op hop)

/-- **A reachable state leaves the log full for good.** -/
theorem log_stalls :
    ∃ p, (∀ a ∈ stallRun, a.Promised) ∧ runPipeline {} stallRun = .ok p ∧ ¬ p.Progress := by
  have hstart : ({} : Pipeline).Recorded [] 0 := ⟨{}, [], rfl, rfl, rfl, rfl⟩
  obtain ⟨q, hrecord, log, appended, rfl, hhead, htail, hcached⟩ :=
    hstart.recordAll stallEntries (by decide) (by decide)
  obtain ⟨st, hdetect, hpending⟩ := stallEntries_detect
  let batch : Pipeline :=
    { log
      batch := some (recordedFrom 0 stallEntries, 29)
      ledger := { appended, drained := [recordedFrom 0 stallEntries] } }
  have hbatch : runPipeline { log, ring := recordedFrom 0 stallEntries, ledger := { appended } }
      [.drain 29, .takeBatch] = .ok batch := rfl
  have hdetected := Pipeline.detect_quiet (p := batch) rfl rfl hdetect
  have hrun := foldlM_append_ok hrecord (foldlM_append_ok hbatch hdetected)
  obtain ⟨past, segment, claimed, built, cut, ho⟩ : Pipeline.InOrder _ :=
    foldlM_inv Pipeline.InOrder (Pipeline.start_inOrder _)
      (fun _ a _ ha hq hstep => hq.step (stallRun_promised a ha) hstep) hrun
  refine ⟨_, stallRun_promised, hrun, Pipeline.Dry.stuck ⟨?_, nofun, ?_⟩⟩
  · rw [hhead, htail]
    decide
  · -- the ops that are pending have been computed, and those before them are not claimed
    obtain ⟨first, hfloor, hfirst, hpends⟩ := ho.follows.held
    refine ⟨past, segment, past.length + first, _, _, ⟨ho.keeps, ⟨ho.follows.live,
      ⟨first, hfloor, hfirst, hpends⟩, Nat.add_le_add_left hfloor _, Nat.add_le_add_left hfirst _⟩,
      .nil ho.keeps.tail_le, .nil le_rfl, ?_⟩, le_rfl⟩
    rw [drop_length_add_append, ← hpends.toList_eq]
    refine laid_of_none (fun op hop => ?_) _
    exact (mem_append.mp hop).elim (hpending op) nofun

end Crucible
