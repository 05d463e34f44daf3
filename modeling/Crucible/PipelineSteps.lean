import Crucible.Pipeline

/-! # What one step of the pipeline can do

One inversion lemma for each action: the guards under which it acts, and the state it
leaves.  Every invariant of the pipeline is proved from these.
-/
namespace Crucible
open Except

/-! ### Builds and releases -/

section Build
variable {sc sc' : Scratch} {log : Nat → TensorMeta} {ops : List RecordedOp}

theorem buildTraceFrom_overflow {metaEnd : Nat}
    (h : buildTraceFrom sc log ops = .overflow metaEnd) : scanTrace ops = .error metaEnd := by
  unfold buildTraceFrom at h
  cases hscan : scanTrace ops with
  | error metaEnd' =>
    rw [hscan] at h
    cases h
    rfl
  | ok scan =>
    rw [hscan] at h
    dsimp only at h
    split at h
    · cases h
    · split at h <;> cases h

theorem buildTraceFrom_metaEnd {trace : BuiltTrace}
    (h : buildTraceFrom sc log ops = .built sc' trace) :
    ∃ scan, scanTrace ops = .ok scan ∧ trace.maxMetaEnd = scan.maxMetaEnd := by
  unfold buildTraceFrom at h
  cases hscan : scanTrace ops with
  | error metaEnd =>
    rw [hscan] at h
    cases h
  | ok scan =>
    rw [hscan] at h
    dsimp only at h
    split at h
    · cases h
    · split at h
      · cases h
      · injection h with _ htrace
        exact ⟨scan, rfl, by rw [← htrace]⟩

end Build

theorem MetaLog.release_cases {log log' : MetaLog} {metaEnd : Nat}
    (h : log.release metaEnd = .ok log') :
    (metaEnd = 0 ∧ log' = log) ∨ (log.tail < metaEnd ∧ log' = { log with tail := metaEnd }) := by
  unfold MetaLog.release at h
  split at h
  · unfold MetaLog.advanceTail at h
    split at h
    · rename_i hlt
      exact .inr ⟨hlt, (ok.inj h).symm⟩
    · cases h
  · exact .inl ⟨by omega, (ok.inj h).symm⟩

namespace Pipeline
variable {p p' : Pipeline}

theorem releaseMetaLog_cases {metaEnd : Nat} (h : p.releaseMetaLog metaEnd = .ok p') :
    ∃ log, p.log.release metaEnd = .ok log ∧ p' = { p with
      log, ledger := { p.ledger with released := p.ledger.released ++ [metaEnd] } } := by
  obtain ⟨log, hlog, h⟩ := bind_ok h
  exact ⟨log, hlog, (ok.inj h).symm⟩

/-! ### The drain stage and the detect stage -/

theorem drain_cases (p : Pipeline) (count : Nat) :
    p.drain count = p ∨ (0 < count ∧ count ≤ p.ring.length ∧ p.drain count = { p with
      ring := p.ring.drop count
      batches := p.batches ++ [p.ring.take count]
      ledger := { p.ledger with drained := p.ledger.drained ++ [p.ring.take count] } }) := by
  by_cases h : 0 < count ∧ count ≤ p.ring.length ∧ count ≤ batchSize
  · exact .inr ⟨h.1, h.2.1, if_pos h⟩
  · exact .inl (if_neg h)

theorem checkReset_cases (h : p.checkReset = .ok p') :
    p' = p ∨ ∃ detect, p.detect.doReset = .ok detect ∧
      p' = { p with detect, resetRequested := false } := by
  unfold Pipeline.checkReset at h
  split at h
  · obtain ⟨detect, hres, h⟩ := bind_ok h
    exact .inr ⟨detect, hres, (ok.inj h).symm⟩
  · exact .inl (ok.inj h).symm

theorem takeBatch_cases (h : p.takeBatch = .ok p') :
    p' = p ∨ ∃ ops batches, p.batch = none ∧ p.batches = ops :: batches ∧
      ({ p with batches, batch := some (ops, ops.length) } : Pipeline).checkReset = .ok p' := by
  unfold Pipeline.takeBatch at h
  split at h
  · rename_i ops batches hbatch hbat
    exact .inr ⟨ops, batches, hbatch, hbat, h⟩
  · exact .inl (ok.inj h).symm

theorem detectNext_cases (h : p.detectNext = .ok p') :
    p' = p ∨ ∃ op rest count q detect answer, p.batch = some (op :: rest, count) ∧
      p.checkReset = .ok q ∧ q.detect.detectOp op = .ok (detect, answer) ∧
      p' = ({ q with detect, batch := some (rest, count) } : Pipeline).sendWork answer := by
  unfold Pipeline.detectNext at h
  split at h
  · rename_i op rest count hbat
    obtain ⟨q, hres, h⟩ := bind_ok h
    obtain ⟨⟨detect, answer⟩, hdet, h⟩ := bind_ok h
    exact .inr ⟨op, rest, count, q, detect, answer, hbat, hres, hdet, (ok.inj h).symm⟩
  · exact .inl (ok.inj h).symm

theorem sendCommit_cases (p : Pipeline) :
    p.sendCommit = p ∨ ∃ count, p.batch = some ([], count) ∧ p.sendCommit = { p with
      works := p.works ++ [.commit count]
      batch := none
      ledger := { p.ledger with marked := p.ledger.marked + 1 } } := by
  unfold Pipeline.sendCommit
  split
  · rename_i count hbat
    exact .inr ⟨count, hbat, rfl⟩
  · exact .inl rfl

/-! ### The build stage -/

theorem takeWork_cases (p : Pipeline) :
    ((p.building ≠ none ∨ p.works = []) ∧ p.takeWork = p) ∨
      ∃ work works, p.building = none ∧ p.works = work :: works ∧
      p.takeWork = { p with works, building := some work } := by
  unfold Pipeline.takeWork
  split
  · rename_i work works hbuil hwor
    exact .inr ⟨work, works, hbuil, hwor, rfl⟩
  · rename_i hidle
    refine .inl ⟨?_, rfl⟩
    by_cases hbuil : p.building = none
    · cases hwor : p.works with
      | nil => exact .inr rfl
      | cons work works => exact absurd hwor (hidle work works hbuil)
    · exact .inl hbuil

def afterOverflow (p : Pipeline) (id metaEnd : Nat) : Pipeline :=
  { p with
    building := none
    publishes := if metaEnd > 0 then p.publishes ++ [.release metaEnd] else p.publishes
    ledger := { p.ledger with settled := p.ledger.settled ++ [(id, .overflow)] } }

def afterBuild (p : Pipeline) (id : Nat) (work : BuildWork) (scratch : Scratch)
    (parts : BuiltTrace) : Pipeline :=
  { p with
    building := none
    scratch
    publishes := p.publishes ++ [.region id parts work.epoch]
    ledger := { p.ledger with copies := p.ledger.copies ++ copiedRun p.log work.ops } }

theorem buildNext_cases (h : p.buildNext = .ok p') : (p.building = none ∧ p' = p) ∨
    (∃ count, p.building = some (.commit count) ∧
      p' = { p with building := none, publishes := p.publishes ++ [.commit count] }) ∨
    (∃ id work metaEnd, p.building = some (.build id work) ∧
      scanTrace work.ops = .error metaEnd ∧ p' = p.afterOverflow id metaEnd) ∨
    ∃ id work scratch parts, p.building = some (.build id work) ∧
      buildTraceFrom p.scratch p.log.record work.ops = .built scratch parts ∧
      p' = p.afterBuild id work scratch parts := by
  unfold Pipeline.buildNext at h
  split at h
  · rename_i hidle
    exact .inl ⟨hidle, (ok.inj h).symm⟩
  · rename_i count hbuil
    exact .inr (.inl ⟨count, hbuil, (ok.inj h).symm⟩)
  · rename_i id work hbuil
    split at h
    · cases h
    · rename_i metaEnd hbuild
      exact .inr (.inr (.inl ⟨id, work, metaEnd, hbuil, buildTraceFrom_overflow hbuild,
        (ok.inj h).symm⟩))
    · rename_i scratch parts hbuild
      exact .inr (.inr (.inr ⟨id, work, scratch, parts, hbuil, hbuild, (ok.inj h).symm⟩))

/-! ### The publish stage -/

theorem takePublish_cases (h : p.takePublish = .ok p') :
    ((p.checked ≠ none ∨ p.publishes = []) ∧ p' = p) ∨
    (∃ count publishes, p.checked = none ∧ p.publishes = .commit count :: publishes ∧
      p' = { p with
        publishes
        totalProcessed := p.totalProcessed + count
        ledger := { p.ledger with committed := p.ledger.committed + 1 } }) ∨
    (∃ metaEnd publishes, p.checked = none ∧ p.publishes = .release metaEnd :: publishes ∧
      ({ p with publishes } : Pipeline).releaseMetaLog metaEnd = .ok p') ∨
    ∃ id parts epoch publishes, p.checked = none ∧
      p.publishes = .region id parts epoch :: publishes ∧
      ((epoch ≠ p.detect.epoch ∧
        (({ p with publishes } : Pipeline).settle id (.stale epoch p.detect.epoch)).releaseMetaLog
          parts.maxMetaEnd = .ok p') ∨
      (epoch = p.detect.epoch ∧
        p' = { p with publishes, checked := some (id, parts, epoch, p.detect.epoch) })) := by
  unfold Pipeline.takePublish at h
  split at h
  · rename_i count publishes hchec hpub
    exact .inr (.inl ⟨count, publishes, hchec, hpub, (ok.inj h).symm⟩)
  · rename_i metaEnd publishes hchec hpub
    exact .inr (.inr (.inl ⟨metaEnd, publishes, hchec, hpub, h⟩))
  · rename_i id parts epoch publishes hchec hpub
    refine .inr (.inr (.inr ⟨id, parts, epoch, publishes, hchec, hpub, ?_⟩))
    split at h
    · rename_i hstale
      exact .inl ⟨hstale, h⟩
    · rename_i hfresh
      exact .inr ⟨Decidable.not_not.mp hfresh, (ok.inj h).symm⟩
  · rename_i hcom hrel hreg
    refine .inl ⟨?_, (ok.inj h).symm⟩
    by_cases hchec : p.checked = none
    · cases hpub : p.publishes with
      | nil => exact .inr rfl
      | cons m publishes =>
        cases m with
        | commit count => exact absurd hpub (hcom count publishes hchec)
        | release metaEnd => exact absurd hpub (hrel metaEnd publishes hchec)
        | region id parts epoch =>
          exact absurd hpub (hreg id parts epoch publishes hchec)
    · exact .inl hchec

theorem publishRegion_cases {marks : RegionMarks} (h : p.publishRegion marks = .ok p') :
    (p.checked = none ∧ p' = p) ∨
      ∃ id parts epoch resetEpoch, p.checked = some (id, parts, epoch, resetEpoch) ∧
      ((p.store.freeIndex = none ∧ ∃ store,
        (({ p with checked := none, store } : Pipeline).settle id
          (.storeFull epoch resetEpoch)).releaseMetaLog parts.maxMetaEnd = .ok p') ∨
      ∃ q store, (({ p with checked := none } : Pipeline).settle id
          (.published epoch resetEpoch)).releaseMetaLog parts.maxMetaEnd = .ok q ∧
        p' = { q with store }) := by
  unfold Pipeline.publishRegion at h
  split at h
  · rename_i hidle
    exact .inl ⟨hidle, (ok.inj h).symm⟩
  · rename_i id parts epoch resetEpoch hchec
    refine .inr ⟨id, parts, epoch, resetEpoch, hchec, ?_⟩
    dsimp only at h
    split at h
    · rename_i hfull
      exact .inl ⟨hfull, _, h⟩
    · obtain ⟨plan, -, h⟩ := bind_ok h
      obtain ⟨q, hrel, h⟩ := bind_ok h
      exact .inr ⟨q, _, hrel, (ok.inj h).symm⟩

end Pipeline
end Crucible
