import Crucible.PipelineMoves
import Crucible.Spans
import Crucible.WorkItems

/-! # The order of the metadata along the pipeline

The foreground appends records at the head of the log, the detect stage cuts work items out
of the stream in that order and the channels keep it.  So the messages in flight, the work
items behind them and the ops behind those take consecutive stretches of the log between its
tail and its head.  A release then moves the tail forward to the end of the oldest message,
and the run of a work item that is still to be built lies in the log.
-/
namespace Crucible
open List

/-! ### What takes a stretch of the log -/

/-- The records of an op lie between two points of the log. -/
def RecordedOp.Fits (lo hi : Nat) (op : RecordedOp) : Prop :=
  match op.metaIndex with
  | none => lo ≤ hi
  | some start => lo ≤ start ∧ 0 < op.entry.numInputs + op.entry.numOutputs ∧
      start + op.entry.numInputs + op.entry.numOutputs ≤ hi

variable {hi lo mid : Nat} {op : RecordedOp}

theorem RecordedOp.Fits.le (h : op.Fits lo hi) : lo ≤ hi := by
  cases hmeta : op.metaIndex <;> simp only [Fits, hmeta] at h <;> omega

theorem RecordedOp.Fits.mono {lo' hi' : Nat} (hlo : lo' ≤ lo)
    (hhi : hi ≤ hi') (h : op.Fits lo hi) : op.Fits lo' hi' := by
  cases hmeta : op.metaIndex <;> simp only [Fits, hmeta] at h ⊢ <;> omega

/-- An op with metadata takes its records. -/
def opSpan : Span Nat RecordedOp where
  fits lo hi op := op.Fits lo hi
  le := RecordedOp.Fits.le
  mono := RecordedOp.Fits.mono

/-- A message takes the stretch up to the end that it releases. -/
def messageSpan : Span Nat PublishMessage where
  fits lo hi m := lo ≤ hi ∧ (m.metaEnd = 0 ∨ lo < m.metaEnd ∧ m.metaEnd ≤ hi)
  le h := h.1
  mono hlo hhi h := by omega

def workSpan : Span Nat PipelineWork where
  fits lo hi w := match w with
    | .build _ work => opSpan.Laid lo work.ops hi
    | .commit _ => lo ≤ hi
  le {lo hi w} h := by
    cases w with
    | build id work => exact h.le
    | commit count => exact h
  mono {lo lo' hi hi' w} hlo hhi h := by
    cases w with
    | build id work => exact (h.mono_left hlo).mono_right hhi
    | commit count => exact hlo.trans (h.trans hhi)

/-! ### The scan of a work item -/

/-- What the scan of ops between `lo` and `hi` has found. -/
def ScanWithin (lo hi : Nat) (scan : TraceScan) : Prop :=
  (scan.firstMeta = none ∧ scan.maxMetaEnd = 0) ∨
    ∃ first, scan.firstMeta = some first ∧ lo ≤ first ∧ first < scan.maxMetaEnd ∧
      scan.maxMetaEnd ≤ hi

variable {scan acc : TraceScan}

theorem ScanWithin.end_within (h : ScanWithin lo hi scan) :
    scan.maxMetaEnd = 0 ∨ lo < scan.maxMetaEnd ∧ scan.maxMetaEnd ≤ hi := by
  rcases h with ⟨-, hzero⟩ | ⟨first, -, hlo, hlt, hhi⟩
  · exact .inl hzero
  · exact .inr ⟨by omega, hhi⟩

theorem scanTraceOp_within
    (hacc : ScanWithin lo mid acc) (hle : lo ≤ mid) (hop : opSpan.fits mid hi op)
    (h : scanTraceOp acc op = .ok scan) : ScanWithin lo hi scan := by
  cases hmeta : op.metaIndex with
  | none =>
    simp only [opSpan, RecordedOp.Fits, hmeta] at hop
    simp only [scanTraceOp, hmeta] at h
    split at h
    · cases h
    · cases h
      rcases hacc with hnone | ⟨first, hfir, hlo, hlt, hhi⟩
      · exact .inl hnone
      · exact .inr ⟨first, hfir, hlo, hlt, by omega⟩
  | some start =>
    simp only [opSpan, RecordedOp.Fits, hmeta] at hop
    simp only [scanTraceOp, hmeta] at h
    cases h
    rcases hacc with ⟨hnone, hzero⟩ | ⟨first, hfir, hlo, hlt, hhi⟩
    · refine .inr ⟨start, ?_, by omega, ?_, ?_⟩
      · rw [hnone]
        rfl
      · change start < max acc.maxMetaEnd _
        omega
      · change max acc.maxMetaEnd _ ≤ hi
        omega
    · refine .inr ⟨first, ?_, hlo, ?_, ?_⟩
      · rw [hfir]
        rfl
      · change first < max acc.maxMetaEnd _
        omega
      · change max acc.maxMetaEnd _ ≤ hi
        omega

/-- The scan over ops laid out from `mid` to `hi`, and what it reports of an overflow. -/
theorem scanTrace_within {ops : List RecordedOp}
    (hops : opSpan.Laid mid ops hi) (hacc : ScanWithin lo mid acc) (hle : lo ≤ mid) :
    (∀ scan, ops.foldlM scanTraceOp acc = .ok scan → ScanWithin lo hi scan) ∧
    ∀ metaEnd, ops.foldlM scanTraceOp acc = .error metaEnd →
      metaEnd = 0 ∨ lo < metaEnd ∧ metaEnd ≤ hi := by
  induction hops generalizing acc with
  | nil hhi =>
    refine ⟨fun scan h => ?_, nofun⟩
    cases h
    rcases hacc with hnone | ⟨first, hfir, hlo, hlt, hmid⟩
    · exact .inl hnone
    · exact .inr ⟨first, hfir, hlo, hlt, hmid.trans hhi⟩
  | cons hop hrest ih =>
    rename_i lo' mid' hi' op rest
    rw [foldlM_cons]
    cases hstep : scanTraceOp acc op with
    | error metaEnd =>
      refine ⟨nofun, fun metaEnd' h => ?_⟩
      cases h
      -- the overflow reports the end that the scan had before this op
      have hend : metaEnd = acc.maxMetaEnd := by
        unfold scanTraceOp at hstep
        split at hstep
        · split at hstep
          · exact (Except.error.inj hstep).symm
          · cases hstep
        · cases hstep
      have hmid := opSpan.le hop
      have hhi := hrest.le
      have hwit := hacc.end_within
      omega
    | ok next =>
      exact ih (scanTraceOp_within hacc hle hop hstep) (hle.trans (opSpan.le hop))

/-! ### The invariant -/

namespace Pipeline

/-- The messages end at `built`, the work items at `cut`, and the ops from `claimed` on
take the rest of the log. -/
structure Ordered (p : Pipeline) (past segment : List RecordedOp) (claimed built cut : Nat) :
    Prop where
  keeps : p.log.Keeps p.ledger.appended
  follows : p.detect.Follows past segment claimed
  messages : messageSpan.Laid p.log.tail p.messages built
  works : workSpan.Laid built p.unbuilt cut
  ops : opSpan.Laid cut ((past ++ segment).drop claimed ++ p.unseen) p.log.head

def InOrder (p : Pipeline) : Prop :=
  ∃ past segment claimed built cut, p.Ordered past segment claimed built cut

variable {p p' : Pipeline} {past segment : List RecordedOp} {claimed built cut : Nat}

theorem start_inOrder (owner : PlanOwner) : ({ owner } : Pipeline).InOrder :=
  ⟨[], [], 0, 0, 0, MetaLog.start_keeps, DetectStage.start_follows, .nil le_rfl,
    .nil le_rfl, .nil le_rfl⟩

/-! ### Each step keeps the order -/

/-- A recorded op takes the records that were appended for it.  A full log has none. -/
theorem Ordered.recordOp {entry : RingEntry} {metas : List TensorMeta}
    {scopeHash callsiteHash : Nat} (ho : p.Ordered past segment claimed built cut)
    (hprom : p.log.head < p.log.tail + metaLogCapacity →
      metas = [] ∨ metas.length = entry.numInputs + entry.numOutputs)
    (h : p.recordOp entry metas scopeHash callsiteHash = .ok p') :
    p'.Ordered past segment claimed built cut := by
  obtain ⟨⟨log, index⟩, hlog, h⟩ := bind_ok h
  have happ := MetaLog.tryAppend_appended ho.keeps.cached_le ho.keeps.tail_le hlog
  have hfits : opSpan.fits p.log.head log.head ⟨entry, index, scopeHash, callsiteHash⟩ := by
    obtain ⟨rfl, hhead, -⟩ | ⟨rfl, hne, hroom, hhead, -⟩ := happ.answer
    · exact le_of_eq hhead.symm
    · have hpos := length_pos_iff.mpr hne
      have hlen := (hprom (by omega)).resolve_left hne
      simp only [opSpan, RecordedOp.Fits]
      omega
  cases h
  refine ⟨ho.keeps.tryAppend hlog, ho.follows, ?_, ho.works, ?_⟩
  · rw [happ.tail_eq]
    exact ho.messages
  · change opSpan.Laid cut (_ ++ ((p.batch.map Prod.fst).getD [] ++ (p.batches.flatten ++
      if p.ring.length < traceRingCapacity then p.ring ++ [_] else p.ring))) log.head
    split
    · rw [← append_assoc p.batches.flatten, ← append_assoc ((p.batch.map _).getD _),
        ← append_assoc (drop _ _)]
      exact ho.ops.concat hfits
    · exact ho.ops.mono_right (opSpan.le hfits)

theorem laid_report {stream rest : List RecordedOp} {claimed' length hi : Nat}
    (hops : opSpan.Laid cut (stream.drop claimed ++ rest) hi)
    (hfrom : claimed + length + detectorK ≤ stream.length)
    (hend : claimed' + detectorK = stream.length) :
    ∃ cut', opSpan.Laid cut (iterationOps stream length) cut' ∧
      opSpan.Laid cut' (stream.drop claimed' ++ rest) hi := by
  obtain ⟨mid, hstr, hrest⟩ := hops.split
  have hdrop := hstr.drop (stream.length - detectorK - length - claimed)
  rw [drop_drop, show claimed + (stream.length - detectorK - length - claimed) =
    stream.length - detectorK - length by omega] at hdrop
  rw [← take_append_drop length (stream.drop _)] at hdrop
  obtain ⟨cut', hwork, hkept⟩ := hdrop.split
  rw [drop_drop, show stream.length - detectorK - length + length = claimed' by omega]
    at hkept
  exact ⟨cut', hwork, hkept.append hrest⟩

theorem inOrder_queues : p.queues.InOrder ↔ p.InOrder := by
  constructor <;> rintro ⟨past, segment, claimed, built, cut, ho⟩ <;>
    exact ⟨past, segment, claimed, built, cut, ho.keeps, ho.follows, ho.messages, ho.works, ho.ops⟩

/-- **One op of the detect stage** keeps the order, and a work item that it cuts takes
the next stretch. -/
theorem Ordered.detect (ho : p.Ordered past segment claimed built cut) {detect : DetectStage}
    {ring : List RecordedOp} {answer : Option (Nat × Option BuildWork)}
    (huns : p.unseen = op :: ring)
    (hdet : p.detect.detectOp op = .ok (detect, answer)) (id : Nat) :
    ∃ claimed' cut', Ordered { p.queues with detect, ring, works := p.unbuilt ++ worksOf id answer }
      past (segment ++ [op]) claimed' built cut' := by
  obtain ⟨claimed', hfol, hle, hrepo⟩ := ho.follows.detectOp hdet
  have hlen : (past ++ (segment ++ [op])).length = past.length + (segment.length + 1) := by
    simp
  have hops : opSpan.Laid cut ((past ++ (segment ++ [op])).drop claimed ++ ring) p.log.head := by
    have hclaim : claimed ≤ (past ++ segment).length := by
      rw [length_append]
      exact ho.follows.claimed_stream
    rw [← append_assoc past, drop_append_of_le_length hclaim, append_assoc,
      singleton_append, ← huns]
    exact ho.ops
  have hquiet : Ordered { p.queues with detect, ring, works := p.unbuilt } past (segment ++ [op])
      claimed' built cut := by
    refine ⟨ho.keeps, hfol, ho.messages, ho.works, ?_⟩
    obtain ⟨mid, hstr, hrest⟩ := hops.split
    have hdrop := hstr.drop (claimed' - claimed)
    rw [drop_drop, Nat.add_sub_cancel' hle] at hdrop
    exact hdrop.append hrest
  rcases answer with - | ⟨length, - | work⟩
  · exact ⟨claimed', cut, by simpa [worksOf] using hquiet⟩
  · exact ⟨claimed', cut, by simpa [worksOf] using hquiet⟩
  · obtain ⟨hrep, hfrom, hend⟩ := hrepo length (some work) rfl
    obtain ⟨cut', hwork, hrest⟩ := laid_report hops (hlen ▸ hfrom) (hlen ▸ hend)
    have hwork' : opSpan.Laid cut work.ops cut' := by
      rw [Option.some.inj hrep.ops_eq]
      exact hwork
    exact ⟨claimed', cut', ho.keeps, hfol, ho.messages, ho.works.concat hwork', hrest⟩

/-- **The run of a work item in the build stage** starts at or after the tail and ends at
or before the head. -/
theorem Ordered.building_scan (ho : p.Ordered past segment claimed built cut) {id : Nat}
    {work : BuildWork} {works : List PipelineWork} (hunb : p.unbuilt = .build id work :: works)
    {scan : TraceScan} (hscan : scanTrace work.ops = .ok scan) :
    ScanWithin p.log.tail p.log.head scan := by
  have hlaid := ho.works
  rw [hunb] at hlaid
  obtain ⟨mid, hwork, hrest⟩ := hlaid.of_cons
  have hops : opSpan.Laid built work.ops mid := hwork
  have hwit := (scanTrace_within hops (.inl ⟨rfl, rfl⟩) (Nat.le_refl built)).1 scan hscan
  have hlo := ho.messages.le
  have hhi := hrest.le.trans ho.ops.le
  rcases hwit with hnone | ⟨first, hfir, hge, hlt, hle⟩
  · exact .inl hnone
  · exact .inr ⟨first, hfir, by omega, hlt, by omega⟩

def nextRelease (p : Pipeline) : Option Nat :=
  match p.messages with
  | .commit _ :: _ => none
  | m :: _ => some m.metaEnd
  | [] => none

variable {m : PublishMessage} {rest : List PublishMessage}

section
variable (ho : p.Ordered past segment claimed built cut)
include ho

theorem Ordered.head_message (hmes : p.messages = m :: rest) :
    ∃ mid, messageSpan.fits p.log.tail mid m ∧ messageSpan.Laid mid rest built ∧
      mid ≤ p.log.head := by
  have hlaid := ho.messages
  rw [hmes] at hlaid
  obtain ⟨mid, hm, hrest⟩ := hlaid.of_cons
  exact ⟨mid, hm, hrest, hrest.le.trans (ho.works.le.trans ho.ops.le)⟩

/-- **The contract of the tail** holds at the next release. -/
theorem Ordered.release_within (hmes : p.messages = m :: rest) :
    m.metaEnd = 0 ∨ p.log.tail < m.metaEnd ∧ m.metaEnd ≤ p.log.head := by
  obtain ⟨mid, ⟨-, hm⟩, -, hle⟩ := ho.head_message hmes
  omega

theorem Ordered.sendMessages {w : PipelineWork}
    {works : List PipelineWork} (ms : List PublishMessage) (hunb : p.unbuilt = w :: works)
    (hms : ∀ {hi}, workSpan.fits built hi w → messageSpan.Laid built ms hi) :
    ∃ mid, messageSpan.Laid p.log.tail (p.messages ++ ms) mid ∧ workSpan.Laid mid works cut ∧
      built ≤ mid ∧ ∀ m ∈ p.messages ++ ms, m ∈ p.messages ∨ m.metaEnd = 0 ∨ built < m.metaEnd := by
  have hlaid := ho.works
  rw [hunb] at hlaid
  obtain ⟨mid, hwork, hrest⟩ := hlaid.of_cons
  refine ⟨mid, ho.messages.append (hms hwork), hrest, (hms hwork).le, fun m hm => ?_⟩
  exact (mem_append.mp hm).imp_right fun hm => ((hms hwork).mem hm).2.imp_right And.left

/-- **One move** keeps the order, and a new message releases what lies behind the older
ones. -/
theorem Ordered.moves (h : Moves p p') :
    ∃ past' segment' claimed' built' cut', p'.Ordered past' segment' claimed' built' cut' ∧
      built ≤ built' ∧ ∀ m ∈ p'.messages, m ∈ p.messages ∨ m.metaEnd = 0 ∨ built < m.metaEnd := by
  cases h with
  | reset h =>
    refine ⟨past ++ segment, [], claimed, built, cut, ⟨ho.keeps, ho.follows.doReset h,
      ho.messages, ho.works, ?_⟩, Nat.le_refl built, fun m hm => .inl hm⟩
    rw [append_nil]
    exact ho.ops
  | detect huns h id =>
    obtain ⟨claimed', cut', ho'⟩ := ho.detect huns h id
    exact ⟨past, _, claimed', built, cut', ho', Nat.le_refl built, fun m hm => .inl hm⟩
  | commit count =>
    exact ⟨past, segment, claimed, built, cut, ⟨ho.keeps, ho.follows, ho.messages,
      ho.works.concat (Nat.le_refl cut), ho.ops⟩, Nat.le_refl built, fun m hm => .inl hm⟩
  | @pass count works hunb =>
    obtain ⟨mid, hmes, hwor, hle⟩ :=
      ho.sendMessages [.commit count] hunb fun hle => .singleton ⟨hle, .inl rfl⟩
    exact ⟨past, segment, claimed, mid, cut, ⟨ho.keeps, ho.follows, hmes, hwor, ho.ops⟩, hle⟩
  | @overflow id metaEnd work works hunb h =>
    obtain ⟨mid, hmes, hwor, hle⟩ := ho.sendMessages
      (if metaEnd > 0 then [.release metaEnd] else []) hunb fun {hi} hops => by
        have hwit := (scanTrace_within hops (.inl ⟨rfl, rfl⟩) (Nat.le_refl built)).2 metaEnd h
        split
        · exact .singleton ⟨Span.Laid.le hops, hwit⟩
        · exact .nil (Span.Laid.le hops)
    exact ⟨past, segment, claimed, mid, cut, ⟨ho.keeps, ho.follows, hmes, hwor, ho.ops⟩, hle⟩
  | @build id work works scratch parts hunb h =>
    obtain ⟨scan, hscan, hend⟩ := buildTraceFrom_metaEnd h
    obtain ⟨mid, hmes, hwor, hle⟩ := ho.sendMessages
      [.region id parts work.epoch] hunb fun {hi} hops => by
        have hwit := (scanTrace_within hops (.inl ⟨rfl, rfl⟩) (Nat.le_refl built)).1 scan hscan
        refine .singleton ⟨Span.Laid.le hops, ?_⟩
        simpa [PublishMessage.metaEnd, hend] using hwit.end_within
    exact ⟨past, segment, claimed, mid, cut, ⟨ho.keeps, ho.follows, hmes, hwor, ho.ops⟩, hle⟩
  | committed hmes =>
    obtain ⟨mid, ⟨hle, -⟩, hlaid, -⟩ := ho.head_message hmes
    exact ⟨past, segment, claimed, built, cut, ⟨ho.keeps, ho.follows, hlaid.mono_left hle,
      ho.works, ho.ops⟩, Nat.le_refl built, fun m hm => .inl (hmes ▸ mem_cons_of_mem _ hm)⟩
  | @release m publishes log hmes h =>
    obtain ⟨mid, ⟨hle, hm⟩, hlaid, -⟩ := ho.head_message hmes
    obtain ⟨log', hlog, hkeeps, hhead, htail⟩ := ho.keeps.release (ho.release_within hmes)
    obtain rfl : log = log' := Except.ok.inj (h.symm.trans hlog)
    refine ⟨past, segment, claimed, built, cut, ⟨hkeeps, ho.follows, ?_, ho.works, ?_⟩,
      Nat.le_refl built, fun m hm => .inl (hmes ▸ mem_cons_of_mem _ hm)⟩
    · refine hlaid.mono_left ?_
      rw [htail]
      split <;> omega
    · rw [hhead]
      exact ho.ops

end

theorem InOrder.moves (hp : p.InOrder) (h : Moves p p') : p'.InOrder := by
  obtain ⟨past, segment, claimed, built, cut, ho⟩ := hp
  obtain ⟨past', segment', claimed', built', cut', ho', -⟩ := ho.moves h
  exact ⟨past', segment', claimed', built', cut', ho'⟩

/-- **One action** keeps the order. -/
theorem InOrder.step {a : PipelineAction} (hp : p.InOrder) (ha : a.Promised)
    (h : p.step a = .ok p') : p'.InOrder := by
  obtain ⟨entry, metas, scopeHash, callsiteHash, rfl, h⟩ | h := step_changes h
  · obtain ⟨past, segment, claimed, built, cut, ho⟩ := hp
    exact ⟨past, segment, claimed, built, cut, ho.recordOp (fun _ => ha) h⟩
  · exact inOrder_queues.mp (h.keeps InOrder (inOrder_queues.mpr hp) fun hmov hq => hq.moves hmov)

end Pipeline
end Crucible
