import Crucible.DetectorReceive

/-! # A check ends

A check of a detector with room in its table ends, unless one of its two counters is at
its end.  The loops of `accept_` end because the links lead back.  `check_spec` puts the
parts together: the invariant holds again, and a detector that searches afterwards has
either kept its two sizes or has built its table for the ring that it has.
-/
namespace Crucible
open List IterationDetector
namespace IterationDetector
open OpenAddressing

/-! ### The phase of an accepted period -/

section Phase
variable {d : IterationDetector} {key : Nat → Nat} {lo hi length : Nat}

/-- The loop over the copies of a window ends: each link leads further back, and the loop
stays within `length` windows. -/
theorem countCopies_total (h : d.Windowed key lo hi) {windowStart : Nat} (fuel link copies : Nat)
    (hlink : link ≤ windowStart) (hstart : windowStart ≤ hi) (hlo : lo + length ≤ windowStart)
    (hfuel : link + length < windowStart + fuel) (hpos : 0 < fuel) :
    ∃ count, d.countCopies length windowStart fuel link copies = .ok count ∧ copies ≤ count := by
  induction fuel generalizing link copies with
  | zero => cases hpos
  | succ fuel ih =>
    unfold countCopies
    split
    · have hback := (h.links (link - 1) (by omega) (by omega)).le
      obtain ⟨count, hcount, hle⟩ := ih _ (copies + 1)
        (hback.trans (by omega)) (by omega) (by omega)
      exact ⟨count, hcount, Nat.le_of_succ_le hle⟩
    · exact ⟨copies, rfl, le_rfl⟩

variable {bodyBegin phase link : Nat}

theorem bestPhaseStep_total (h : d.Windowed key lo hi) (best : Nat × Nat)
    (hphase : bodyBegin + phase < hi) (hlo : lo + length ≤ bodyBegin) :
    ∃ best', d.bestPhaseStep length bodyBegin best phase = .ok best' ∧
      (best' = best ∨ (best'.1 = phase ∧ best'.2 < best.2 ∧ 1 ≤ best'.2)) := by
  have hback := (h.links (bodyBegin + phase) (by omega) hphase).le
  unfold bestPhaseStep
  dsimp only
  split
  · exact ⟨best, rfl, .inl rfl⟩
  · obtain ⟨count, hcount, hle⟩ := countCopies_total h (length + 2)
      (d.earlierLinks ((bodyBegin + phase) &&& d.historyMask)) 1 hback (by omega)
      (show lo + length ≤ bodyBegin + phase by omega) (by omega) (by omega)
    rw [bind_of_ok hcount]
    split
    · rename_i hfew
      exact ⟨_, rfl, .inr ⟨rfl, hfew, hle⟩⟩
    · exact ⟨best, rfl, .inl rfl⟩

theorem bestPhaseStep_skip {best : Nat × Nat}
    (hlink : d.earlierLinks ((bodyBegin + phase) &&& d.historyMask) = link)
    (hcopy : link ≠ 0 ∧ bodyBegin ≤ link - 1) :
    d.bestPhaseStep length bodyBegin best phase = .ok best := by
  rw [bestPhaseStep, hlink, if_pos hcopy]

theorem bestPhaseStep_count {best : Nat × Nat} (phase copies : Nat)
    (hlink : d.earlierLinks ((bodyBegin + phase) &&& d.historyMask) = link)
    (hfir : ¬ (link ≠ 0 ∧ bodyBegin ≤ link - 1))
    (hcount : d.countCopies length (bodyBegin + phase) (length + 2) link 1 = .ok copies) :
    d.bestPhaseStep length bodyBegin best phase =
      .ok (if copies < best.2 then (phase, copies) else best) := by
  rw [bestPhaseStep, hlink, if_neg hfir, bind_of_ok hcount]
  split <;> rfl

theorem bestPhase_total (h : d.Windowed key lo hi)
    (hhi : bodyBegin + length ≤ hi) (hlo : lo + length ≤ bodyBegin) :
    ∃ best, d.bestPhase length bodyBegin = .ok best := by
  obtain ⟨best, hfold, -⟩ := foldlM_range_ok (n := length) (fun _ _ => True) trivial
    fun n best hn _ => by
    obtain ⟨best', hstep, -⟩ := bestPhaseStep_total h best (show bodyBegin + n < hi by omega) hlo
    exact ⟨best', hstep, trivial⟩
  exact ⟨best, hfold⟩

end Phase

/-! ### Reports and acceptance -/

def fired (d : IterationDetector) : IterationDetector :=
  { d with
    periodsReported :=
      if d.currentPeriodReported then d.periodsReported else wrap32 (d.periodsReported + 1)
    currentPeriodReported := true
    lastCompletedLen := d.period
    opsSinceBoundary := detectorK
    boundariesDetected := d.boundariesDetected + 1
    nextBoundary := d.nextBoundary + d.period
    base := max d.base (d.nextBoundary - d.period) }

def accepted (d : IterationDetector) (length bodySum nextBoundary count : Nat) :
    IterationDetector :=
  { d with
    period := length
    periodBodySum := bodySum
    currentPeriodReported := false
    phaseIsUnique := count = 1
    confirmed := true
    nextBoundary }

section Report
variable {d : IterationDetector} {key : Nat → Nat}

theorem trim_eq (hper : d.period ≠ 0) (newBase : Nat) :
    d.trim newBase = .ok { d with base := max d.base newBase } := by
  unfold trim
  split
  · rename_i hle
    rw [max_eq_left hle]
  · rename_i hgt
    rw [max_eq_right (Nat.le_of_not_le hgt)]
    exact bind_of_ok (if_neg hper)

theorem fire_eq (hper : d.period ≠ 0) :
    d.fire = if d.boundariesDetected = u32Max then .error .contract else .ok (d.fired, true) := by
  unfold fire bump32
  by_cases hmax : d.boundariesDetected = u32Max
  · rw [if_pos hmax, if_pos hmax]
    rfl
  · rw [if_neg hmax, if_neg hmax]
    refine (bind_of_ok rfl).trans ?_
    dsimp only
    rw [trim_eq (by exact hper)]
    rfl

/-- **An acceptance** reports at once when its best phase is the first. -/
theorem accept_eq {start length bodySum phase count : Nat} (hmin : detectorK ≤ length)
    (hmax : length ≤ maxPeriod) (hbest : d.bestPhase length (start - length) = .ok (phase, count)) :
    d.accept start length bodySum =
      if phase = 0 then
        if d.boundariesDetected = u32Max then .error .contract
        else .ok ((d.accepted length bodySum start count).fired, true)
      else .ok (d.accepted length bodySum (start + phase) count, false) := by
  have hK : detectorK = 5 := rfl
  unfold accept
  rw [if_neg (by omega)]
  refine (bind_of_ok hbest).trans ?_
  dsimp only
  split
  · rename_i hphase
    rw [hphase]
    exact fire_eq (d := d.accepted length bodySum start count) (show length ≠ 0 by omega)
  · rfl

theorem broken_eq (d : IterationDetector) : ∃ refuted refutedCount refutedNext,
      (if d.currentPeriodReported then
        (d.breakPeriod d.period d.periodBodySum 1).markBrokeSinceRestart d.period d.periodBodySum
        else d.breakPeriod d.period d.periodBodySum 1) =
      { d with refuted, refutedCount, refutedNext } := by
  have hbreak : ∃ refuted refutedCount refutedNext,
      d.breakPeriod d.period d.periodBodySum 1 = { d with refuted, refutedCount, refutedNext } := by
    unfold breakPeriod
    split <;> exact ⟨_, _, _, rfl⟩
  obtain ⟨refuted, refutedCount, refutedNext, heq⟩ := hbreak
  rw [heq]
  split <;> exact ⟨_, _, _, rfl⟩

/-- What a boundary that does not hold leaves: the search starts again with a table for
the ring of that time. -/
structure Broken (r d' : IterationDetector) (key : Nat → Nat) : Prop where
  core_eq : d'.core = { r.core with period := 0 }
  windows : d'.Windowed key d'.base (r.pos + 1 - detectorK)
  prints : d'.Prints key
  history_eq : d'.historyMask = r.historyMask
  table_eq : d'.tableMask + 1 = (r.historyMask + 1) * 2
  pos_eq : d'.pos = r.pos

/-- **A boundary that is due** is reported, or breaks the period. -/
theorem verifyBoundary_spec {stop : Nat} (h : d.Holding key stop) (hper : d.period ≠ 0) :
    ((d.isSquare d.nextBoundary d.period ∧
        d.windowsEqual (d.nextBoundary - d.period) d.nextBoundary detectorK) ∧
      d.verifyBoundary =
        if d.boundariesDetected = u32Max then .error .contract else .ok (d.fired, true)) ∨
    (¬ (d.isSquare d.nextBoundary d.period ∧
        d.windowsEqual (d.nextBoundary - d.period) d.nextBoundary detectorK) ∧
      ∃ d', d.verifyBoundary = .ok (d', false) ∧ Broken d d' key) := by
  have hpow : PowMask d.historyMask := h.ring.mask_pow
  have hmask : d.historyMask + 1 ≤ historyMaxCapacity := h.ring.mask_le
  have hroom : d.pos - (d.base - 1) ≤ d.historyMask + 1 := h.ring.room
  have hmax : historyMaxCapacity = 2 ^ 19 := rfl
  have hK : detectorK = 5 := rfl
  unfold verifyBoundary
  dsimp only
  by_cases hgood : d.isSquare d.nextBoundary d.period ∧
      d.windowsEqual (d.nextBoundary - d.period) d.nextBoundary detectorK
  · rw [if_pos hgood]
    exact .inl ⟨hgood, fire_eq hper⟩
  · rw [if_neg hgood]
    refine .inr ⟨hgood, ?_⟩
    obtain ⟨refuted, refutedCount, refutedNext, hbrok⟩ := broken_eq d
    rw [hbrok]
    have hprin : ({ d with
        refuted, refutedCount, refutedNext, period := 0, confirmed := false
        phaseIsUnique := false } : IterationDetector).Prints key := h.prints
    obtain ⟨table, used, links, hreb, hwin⟩ := rebuildTable_spec hprin _ _
      (powMask_double hpow) (show (d.historyMask + 1) * 2 - 1 < 2 ^ 64 by omega)
      (show d.pos + 1 - detectorK - d.base ≤ (d.historyMask + 1) * 2 by omega) le_rfl hpow
      (show d.pos + 1 - detectorK - d.base ≤ d.historyMask + 1 by omega)
    exact ⟨_, bind_of_ok hreb, rfl, hwin, h.prints, rfl,
      Nat.sub_add_cancel (show 1 ≤ (d.historyMask + 1) * 2 by omega), rfl⟩

/-- **The search accepts** a square of the history that ends at the newest window, and
then finds its best phase. -/
theorem search_spec (h : d.Holding key (d.pos + 1 - detectorK)) (hper : d.period = 0)
    {link length bodySum : Nat}
    (hloop : d.searchLoop (d.pos - detectorK) maxCandidates link = some (length, bodySum)) :
    detectorK ≤ length ∧ length ≤ maxPeriod ∧ d.base + 2 * length ≤ d.pos - detectorK ∧
      d.isSquare (d.pos - detectorK) length = true ∧
      ∃ phase count, d.bestPhase length (d.pos - detectorK - length) = .ok (phase, count) ∧
        d.search (d.pos - detectorK) link =
          if phase = 0 then
            if d.boundariesDetected = u32Max then .error .contract
            else .ok ((d.accepted length bodySum (d.pos - detectorK) count).fired, true)
          else .ok (d.accepted length bodySum (d.pos - detectorK + phase) count, false) := by
  obtain ⟨period, hwrap, hmin, htwice, hsquare⟩ := searchLoop_some hloop
  have hcap : d.pos - (d.base - 1) ≤ d.historyMask + 1 := h.ring.room
  have hlim : d.historyMask + 1 ≤ historyMaxCapacity := h.ring.mask_le
  have hmaxC : historyMaxCapacity = 2 ^ 19 := rfl
  have hK : detectorK = 5 := rfl
  have hlen : length = period := hwrap.trans (Nat.mod_eq_of_lt (by omega))
  rw [← hlen] at hmin htwice hsquare
  have hmax : length ≤ maxPeriod := by
    show length ≤ (historyMaxCapacity - detectorK - 1) / 2
    omega
  obtain ⟨⟨phase, count⟩, hbest⟩ := bestPhase_total (h.windows hper)
    (show d.pos - detectorK - length + length ≤ d.pos + 1 - detectorK by omega)
    (show d.base + length ≤ d.pos - detectorK - length by omega)
  refine ⟨hmin, hmax, by omega, hsquare, phase, count, hbest, ?_⟩
  unfold search
  rw [hloop]
  exact accept_eq hmin hmax hbest

end Report

/-! ### A check -/

/-- The detector after the window of the newest op has been linked. -/
structure Linked (r linked : IterationDetector) (key : Nat → Nat) (link : Nat) : Prop where
  frame_eq : linked.frame = r.frame
  core_eq : linked.core = r.core
  base_eq : linked.base = r.base
  history_eq : linked.historyMask = r.historyMask
  table_eq : linked.tableMask = r.tableMask
  holding : linked.Holding key (linked.pos + 1 - detectorK)
  link : Link (print key) r.base (r.pos - detectorK) link

theorem Linked.same {r linked : IterationDetector} {key : Nat → Nat} {link : Nat}
    (h : Linked r linked key link) :
    linked.period = r.period ∧ linked.pos = r.pos ∧ linked.opsSinceBoundary = r.opsSinceBoundary ∧
      linked.boundariesDetected = r.boundariesDetected ∧ linked.refutedCount = r.refutedCount :=
  ⟨(congrArg period h.frame_eq :), (congrArg pos h.frame_eq :),
    (congrArg opsSinceBoundary h.frame_eq :),
    (congrArg boundariesDetected h.frame_eq :),
    (congrArg refutedCount h.frame_eq :)⟩

/-- What a check does with the detector `r` that has received the op. -/
inductive Checks (r : IterationDetector) (key : Nat → Nat) :
    Except Fault (IterationDetector × Bool) → Prop
  /-- No window is complete, or a boundary is still ahead. -/
  | idle (hidle : r.signatureLen < detectorK ∨
      (r.period ≠ 0 ∧ r.pos ≠ r.nextBoundary + detectorK)) : Checks r key (.ok (r, false))
  /-- A boundary holds. -/
  | holds (hperiod : r.period ≠ 0) (hdue : r.pos = r.nextBoundary + detectorK)
      (hsquare : r.isSquare r.nextBoundary r.period = true) :
    Checks r key
      (if r.boundariesDetected = u32Max then .error .contract else .ok (r.fired, true))
  /-- A boundary breaks the period. -/
  | breaks {d' : IterationDetector} (hperiod : r.period ≠ 0)
      (hdue : r.pos = r.nextBoundary + detectorK)
      (hbad : ¬ (r.isSquare r.nextBoundary r.period ∧
        r.windowsEqual (r.nextBoundary - r.period) r.nextBoundary detectorK))
      (hbroken : Broken r d' key) : Checks r key (.ok (d', false))
  /-- The search finds no period. -/
  | misses {linked : IterationDetector} {link : Nat} (hperiod : r.period = 0)
      (hlinked : Linked r linked key link)
      (hloop : linked.searchLoop (r.pos - detectorK) maxCandidates link = none) :
    Checks r key (.ok (linked, false))
  /-- The search accepts a period. -/
  | accepts {linked : IterationDetector} {link length bodySum phase count : Nat}
      (hperiod : r.period = 0) (hlinked : Linked r linked key link)
      (hloop : linked.searchLoop (r.pos - detectorK) maxCandidates link = some (length, bodySum))
      (hmin : detectorK ≤ length) (hmax : length ≤ maxPeriod)
      (hroom : r.base + 2 * length ≤ r.pos - detectorK)
      (hsquare : linked.isSquare (r.pos - detectorK) length = true)
      (hbest : linked.bestPhase length (r.pos - detectorK - length) = .ok (phase, count)) :
    Checks r key
      (if phase = 0 then
        if r.boundariesDetected = u32Max then .error .contract
        else .ok ((linked.accepted length bodySum (r.pos - detectorK) count).fired, true)
      else .ok (linked.accepted length bodySum (r.pos - detectorK + phase) count, false))

section Check
variable {d d' r : IterationDetector} {key : Nat → Nat} {schemaHash shapeHash : Nat} {b : Bool}

theorem Receives.hasRoom (hr : Receives d r key) (hroom : d.TableRoom) (hper : r.period = 0) :
    r.HasRoom := by
  have hpos : r.pos = d.pos + 1 := hr.core.pos_eq
  have hsame : r.period = d.period := hr.core.period_eq
  have hslots : r.pos - (r.base - 1) ≤ r.historyMask + 1 := hr.holding.ring.room
  have hK : detectorK = 5 := rfl
  refine (hr.holding.windows hper).indexed.hasRoom ?_
  have hroom := hroom (hsame ▸ hper)
  cases hr.sizes with
  | fits _ _ _ hhis htab => omega
  | drops _ _ hhis htab => omega
  | grows _ _ _ hsear _ =>
    omega

theorem Receives.table_ne (hr : Receives d r key) (h : d.Live key) : r.tableMask ≠ 0 := by
  cases hr.sizes with
  | fits hmask _ _ _ htab =>
    rw [htab]
    exact fun hzero => hmask (h.fresh hzero).1
  | drops _ hlar _ htab =>
    rw [htab]
    intro hzero
    rw [(h.fresh hzero).1] at hlar
    exact absurd hlar (by decide)
  | grows _ _ _ hsear hheld =>
    intro hzero
    by_cases hper : d.period = 0
    · omega
    · exact hper (h.fresh ((hheld hper).symm.trans hzero)).2

theorem Receives.link_cases (hr : Receives d r key) (hper : r.period = 0)
    (hbase : r.base + detectorK ≤ r.pos) :
    (r.linkWindow (r.pos - detectorK) = .error .endless ∧
        ¬ r.Answers (print key (r.pos - detectorK))) ∨
      ∃ linked link, r.linkWindow (r.pos - detectorK) = .ok (linked, link) ∧
        Linked r linked key link := by
  have hslots : r.pos - (r.base - 1) ≤ r.historyMask + 1 := hr.holding.ring.room
  have hK : detectorK = 5 := rfl
  rcases linkWindow_cases (hr.holding.windows hper) hr.holding.prints (by omega) (by omega)
      (by omega) hr.holding.ring.mask_pow
      (show r.pos - detectorK - r.base < r.historyMask + 1 by omega) with
    hend | ⟨linked, link, hlink, ⟨table, used, links, rfl⟩, hear, hwin⟩
  · exact .inl hend
  rw [show r.pos - detectorK + 1 = r.pos + 1 - detectorK by omega] at hwin
  exact .inr ⟨_, link, hlink, rfl, rfl, rfl, rfl, rfl, ⟨hr.holding.ring, hr.holding.prints,
    hwin.indexed.pow, hwin.indexed.lt, fun _ => hwin⟩, hear⟩

def Unblocked (d : IterationDetector) (key : Nat → Nat) : Prop :=
  d.DropRoom ∧ ∀ r, Receives d r key → r.period = 0 → detectorK ≤ r.pos →
    r.Answers (print key (r.pos - detectorK))

theorem Live.unblocked (h : d.Live key) (hroom : d.TableRoom) : d.Unblocked key :=
  ⟨hroom.drop h.tracks.ring, fun _ hr hper _ => (hr.hasRoom hroom hper).answers _⟩

/-- **What a check does.**  It never ends only when a probe meets a table full of others. -/
theorem check_cases (h : d.Live key) (hkey : keyOf schemaHash shapeHash = key d.pos)
    (hops : d.opsSinceBoundary ≠ u32Max) :
    (d.check schemaHash shapeHash = .error .endless ∧ ¬ d.Unblocked key) ∨
      ∃ r, Receives d r key ∧ Checks r key (d.check schemaHash shapeHash) := by
  rcases receive_cases h hkey hops with ⟨hend, hfull⟩ | ⟨r, hrec, hr⟩
  · refine .inl ⟨?_, fun hunb => hfull hunb.1⟩
    rw [check, hend]
    rfl
  have hcheck : d.check schemaHash shapeHash =
      if r.signatureLen < detectorK then .ok (r, false)
      else if r.period ≠ 0 then
        if r.pos = r.nextBoundary + detectorK then r.verifyBoundary else .ok (r, false)
      else r.linkWindow (r.pos - detectorK) >>= fun out =>
        out.1.search (r.pos - detectorK) out.2 := bind_of_ok hrec
  rw [hcheck]
  by_cases hshort : r.signatureLen < detectorK
  · rw [if_pos hshort]
    exact .inr ⟨r, hr, .idle (.inl hshort)⟩
  rw [if_neg hshort]
  by_cases hper : r.period ≠ 0
  · rw [if_pos hper]
    by_cases hdue : r.pos = r.nextBoundary + detectorK
    · rw [if_pos hdue]
      rcases verifyBoundary_spec hr.holding hper with
        ⟨hgood, heq⟩ | ⟨hbad, d', heq, hbrok⟩
      · rw [heq]
        exact .inr ⟨r, hr, .holds hper hdue hgood.1⟩
      · rw [heq]
        exact .inr ⟨r, hr, .breaks hper hdue hbad hbrok⟩
    · rw [if_neg hdue]
      exact .inr ⟨r, hr, .idle (.inr ⟨hper, hdue⟩)⟩
  rw [if_neg hper]
  have hper : r.period = 0 := Decidable.not_not.mp hper
  -- a full signature means that the newest window lies in the history
  have hsig : r.signatureLen = min r.pos detectorK := hr.core.sig h.tracks
  have hor : r.base = 0 ∨ r.base + detectorK ≤ r.pos := hr.core.tracks h.tracks
  rcases hr.link_cases hper (by omega) with
    ⟨hend, hfull⟩ | ⟨linked, link, hlink, hlin⟩
  · rw [hend]
    exact .inl ⟨rfl, fun hunb => hfull (hunb.2 r hr hper (by omega))⟩
  refine .inr ⟨r, hr, ?_⟩
  rw [bind_of_ok hlink]
  obtain ⟨hzero, hpos, -, hbound, -⟩ := hlin.same
  cases hloop : linked.searchLoop (r.pos - detectorK) maxCandidates link with
  | none =>
    have hsear : linked.search (r.pos - detectorK) link = .ok (linked, false) := by
      rw [search, hloop]
    rw [hsear]
    exact .misses hper hlin hloop
  | some found =>
    rw [← hpos] at hloop
    obtain ⟨hmin, hmax, hroom, hsquare, phase, count, hbest, hsear⟩ :=
      search_spec hlin.holding (hzero.trans hper) hloop
    rw [hpos] at hloop hroom hsquare hbest hsear
    rw [hlin.base_eq] at hroom
    rw [hsear, hbound]
    exact .accepts hper hlin hloop hmin hmax hroom hsquare hbest

/-- **A check reports only what the floor allows.** -/
theorem Checks.checked (hchec : Checks r key (.ok (d', b))) (h : d.Live key)
    (hr : Receives d r key) :
    Checked d.core d'.core (streamKeys key d.pos ++ [key d.pos]) b := by
  have ht := h.tracks
  generalize hout : Except.ok (d', b) = out at hchec
  cases hchec with
  | idle hidle =>
    cases hout
    exact hr.core.quiet ht fun _ => hidle.imp_right And.right
  | holds hper hdue hsquare =>
    split at hout
    · cases hout
    · cases hout
      exact hr.core.held ht hper hdue (isSquare_keys hr.core.ring (hr.core.bodies ht hper)
        (show r.nextBoundary ≤ r.pos by omega) hsquare)
  | breaks hper hdue hbad hbrok =>
    cases hout
    rw [hbrok.core_eq]
    exact hr.core.broke ht hdue
  | misses hper hlin hloop =>
    cases hout
    rw [hlin.core_eq]
    exact hr.core.quiet ht fun hne => absurd hper hne
  | @accepts linked link length bodySum phase count hper hlin hloop hmin hmax hroom hsquare
      hbest =>
    have hbase := hlin.base_eq
    have hpos := hlin.same.2.1
    have hkeys := isSquare_keys (hlin.core_eq ▸ hr.core.ring) (by omega) (by omega) hsquare
    split at hout
    · split at hout
      · cases hout
      · cases hout
        show Checked _ (Core.fired { linked.core with
          period := length, nextBoundary := r.pos - detectorK }) _ true
        rw [hlin.core_eq]
        exact hr.core.reported ht hper hmin hmax hroom hkeys
    · rename_i hphase
      cases hout
      show Checked _ { linked.core with
        period := length, nextBoundary := r.pos - detectorK + phase } _ false
      rw [hlin.core_eq]
      exact hr.core.accepted ht hper hmin hmax hroom hphase

/-- **A check keeps the invariant.** -/
theorem Checks.live (hchec : Checks r key (.ok (d', b))) (h : d.Live key)
    (hr : Receives d r key) : d'.Live key := by
  have hchecked := hchec.checked h hr
  have hK : detectorK = 5 := rfl
  -- the position of the result decides which keys it has received
  have hpos : d'.pos = d.pos + 1 := by
    have hlen : d'.pos = (streamKeys key d.pos ++ [key d.pos]).length :=
      hchecked.tracks.ring.pos_eq
    rw [hlen, streamKeys, length_append, length_map, length_range]
    rfl
  have htrac : d'.core.Tracks (streamKeys key d'.pos) := by
    rw [hpos, streamKeys_succ]
    exact hchecked.tracks
  have hbuilt := hr.table_ne h
  -- a result that keeps the storage of `e` is live
  have hkept : ∀ {e : IterationDetector} {stop : Nat}, e.Holding key stop → e.tableMask ≠ 0 →
      d'.historyMask = e.historyMask → d'.prefixPolys = e.prefixPolys → d'.pos = e.pos →
      e.base ≤ d'.base → d'.tableMask = e.tableMask →
      (d'.period = 0 → d'.Windowed key d'.base (d'.pos + 1 - detectorK)) → d'.Live key := by
    intro e stop he hne hhis hpol hpos hbase htab hwin
    refine ⟨htrac, ⟨htrac.ring, ?_, htab ▸ he.table_pow, htab ▸ he.table_lt, hwin⟩,
      fun hzero => absurd (htab.symm.trans hzero) hne⟩
    rw [Prints, hhis, hpol, hpos]
    exact he.prints.mono (by omega) le_rfl
  have hsig : r.signatureLen = min r.pos detectorK := hr.core.sig h.tracks
  generalize hout : Except.ok (d', b) = out at hchec
  cases hchec with
  | idle hidle =>
    cases hout
    refine hkept hr.holding hbuilt rfl rfl rfl le_rfl rfl fun hzero => ?_
    -- without a full signature there is no window yet
    have hwin := hr.holding.windows hzero
    rwa [show d'.pos - detectorK = d'.pos + 1 - detectorK by omega] at hwin
  | holds hper hdue =>
    split at hout
    · cases hout
    · cases hout
      exact hkept hr.holding hbuilt rfl rfl rfl (le_max_left _ _) rfl fun hzero => absurd hzero hper
  | breaks hper hdue hbad hbrok =>
    cases hout
    have hwin := hbrok.windows
    rw [← hbrok.pos_eq] at hwin
    have hsize := hbrok.table_eq
    exact ⟨htrac, ⟨htrac.ring, hbrok.prints, hwin.indexed.pow, hwin.indexed.lt, fun _ => hwin⟩,
      by omega⟩
  | misses hper hlin hloop =>
    cases hout
    exact hkept hlin.holding (hlin.table_eq ▸ hbuilt) rfl rfl rfl le_rfl rfl hlin.holding.windows
  | @accepts linked link length bodySum phase count hper hlin hloop hmin hmax hroom hsquare
      hbest =>
    have hne : length ≠ 0 := by omega
    split at hout
    · split at hout
      · cases hout
      · cases hout
        exact hkept hlin.holding (hlin.table_eq ▸ hbuilt) rfl rfl rfl (le_max_left _ _) rfl
          fun hzero => absurd hzero hne
    · cases hout
      exact hkept hlin.holding (hlin.table_eq ▸ hbuilt) rfl rfl rfl le_rfl rfl
        fun hzero => absurd hzero hne

/-- **A check whose probes end** ends, and keeps the invariant. -/
theorem check_spec (h : d.Live key) (hunb : d.Unblocked key)
    (hkey : keyOf schemaHash shapeHash = key d.pos) (hops : d.opsSinceBoundary ≠ u32Max) :
    ∃ r out, d.check schemaHash shapeHash = out ∧ Receives d r key ∧ Checks r key out ∧
      ∀ d' b, out = .ok (d', b) → d'.Live key := by
  obtain ⟨r, hr, hchec⟩ := (check_cases h hkey hops).resolve_left fun hend => hend.2 hunb
  exact ⟨r, _, rfl, hr, hchec, fun d' b heq => (heq ▸ hchec).live h hr⟩

/-- **A check that ends** keeps the invariant. -/
theorem check_ok (h : d.Live key) (hkey : keyOf schemaHash shapeHash = key d.pos)
    (hcheck : d.check schemaHash shapeHash = .ok (d', b)) :
    d'.Live key ∧ Checked d.core d'.core (streamKeys key d.pos ++ [key d.pos]) b := by
  have hops : d.opsSinceBoundary ≠ u32Max := by
    intro hmax
    rw [check, receive, bump32, if_pos hmax] at hcheck
    cases hcheck
  rcases check_cases h hkey hops with ⟨hend, -⟩ | ⟨r, hr, hchec⟩
  · rw [hend] at hcheck
    cases hcheck
  · rw [hcheck] at hchec
    exact ⟨hchec.live h hr, hchec.checked h hr⟩

end Check

/-! ### Restarts -/

/-- The detector that `restart_` leaves, before it empties the table. -/
def restarted (d : IterationDetector) : IterationDetector :=
  { d with
    confirmed := false
    phaseIsUnique := false
    opsSinceBoundary := 0
    signatureLen := 0
    boundariesDetected := 0
    lastCompletedLen := 0
    period := 0
    periodBodySum := 0
    periodsReported := 0
    currentPeriodReported := false
    pos := 0
    nextBoundary := 0
    base := 0 }

section Restart
variable {d : IterationDetector} {key : Nat → Nat}

theorem Live.fresh_table (h : d.Live key) (hzero : d.tableMask = 0) :
    slotKey (d.table 0) = none := by
  obtain ⟨hhis, hper⟩ := h.fresh hzero
  have hpos : d.pos = 0 := h.tracks.ring.empty hhis
  have hind := (h.holding.windows hper).indexed
  have hK : detectorK = 5 := rfl
  obtain ⟨c, hc, hnone⟩ := hind.hasRoom (by omega)
  obtain rfl : c = 0 := by omega
  exact hnone

/-- **A restart ends.**  The ring keeps its slots and the table keeps its size. -/
theorem restart_spec (h : d.Live key) (key' : Nat → Nat) :
    ∃ d', d.restart = .ok d' ∧ d'.Live key' ∧ d'.frame = d.restarted.frame ∧ d'.base = 0 ∧
      d'.historyMask = d.historyMask ∧ d'.tableMask = d.tableMask := by
  have hpow : PowMask d.historyMask := h.tracks.ring.mask_pow
  have hle : d.historyMask + 1 ≤ historyMaxCapacity := h.tracks.ring.mask_le
  have hprin : d.restarted.Prints key' := Ring.Holds.empty _ _ _ 0
  have hlive : ∀ {d' : IterationDetector}, d'.frame = d.restarted.frame → d'.base = 0 →
      d'.historyMask = d.historyMask → d'.tableMask = d.tableMask →
      d'.Windowed key' 0 0 → d'.Live key' := by
    intro d' hframe hbase hhis htab hwin
    have hpos : d'.pos = 0 := (congrArg pos hframe :)
    have hper : d'.period = 0 := (congrArg period hframe :)
    have htrac : d'.core.Tracks [] := tracks_empty hpos hbase hper
      (congrArg signatureLen hframe :) (hhis ▸ hpow) (hhis ▸ hle)
    have hemp : streamKeys key' d'.pos = [] := by
      rw [hpos]
      rfl
    refine ⟨hemp ▸ htrac, ⟨hemp ▸ htrac.ring, ?_, htab ▸ h.holding.table_pow,
      htab ▸ h.holding.table_lt, fun _ => ?_⟩, fun hzero => ⟨?_, hper⟩⟩
    · rw [Prints, hpos, hbase]
      exact Ring.Holds.empty _ _ _ 0
    · rw [hpos, hbase]
      exact hwin
    · rw [hhis]
      exact (h.fresh (htab.symm.trans hzero)).1
  have hres : d.restart = if d.tableMask ≠ 0 then
      d.restarted.rebuildTable (d.tableMask + 1) 0 else .ok d.restarted := rfl
  rw [hres]
  by_cases hzero : d.tableMask = 0
  · rw [if_neg (not_not_intro hzero)]
    refine ⟨d.restarted, rfl, hlive rfl rfl rfl rfl ⟨⟨h.holding.table_pow, h.holding.table_lt, ?_⟩,
      nofun⟩, rfl, rfl, rfl, rfl⟩
    rw [windowEntries_empty (print key') (Nat.le_refl 0)]
    refine stores_empty fun c hc => ?_
    have hc : c < d.tableMask + 1 := hc
    obtain rfl : c = 0 := by omega
    exact h.fresh_table hzero
  · rw [if_pos hzero]
    obtain ⟨table, used, links, hreb, hwin⟩ := rebuildTable_spec hprin
      (d.tableMask + 1) 0 h.holding.table_pow h.holding.table_lt (by omega) (by omega) hpow
      (by omega)
    exact ⟨_, hreb, hlive rfl rfl rfl rfl hwin, rfl, rfl, rfl, rfl⟩

/-- **`reset` ends**, with no refuted period. -/
theorem reset_spec (h : d.Live key) (key' : Nat → Nat) :
    ∃ d', d.reset = .ok d' ∧ d'.Live key' ∧ d'.historyMask = d.historyMask ∧
      d'.tableMask = d.tableMask ∧ d'.base = 0 ∧
      d'.frame =
    { d.restarted.frame with refutedCount := 0, refutedNext := 0, refuted := fun _ => {} } := by
  obtain ⟨mid, hmid, hlive, hframe, hbase, hhis, htab⟩ := restart_spec h key'
  refine ⟨_, bind_of_ok hmid, hlive.counted mid.opsSinceBoundary _ 0 0, hhis, htab, hbase, ?_⟩
  show { mid.frame with refutedCount := 0, refutedNext := 0, refuted := fun _ => {} } = _
  rw [hframe]

/-- **`restart_after_divergence` ends.** -/
theorem restartAfterDivergence_spec (h : d.Live key) (key' : Nat → Nat) :
    ∃ d', d.restartAfterDivergence = .ok d' ∧ d'.Live key' ∧ d'.historyMask = d.historyMask ∧
      d'.tableMask = d.tableMask ∧ d'.pos = 0 := by
  have hform : ∃ refuted refutedCount refutedNext, d.restartAfterDivergence =
      ({ d with refuted, refutedCount, refutedNext } : IterationDetector).restart := by
    unfold restartAfterDivergence breakPeriod
    dsimp only
    split
    · split <;> exact ⟨_, _, _, rfl⟩
    · exact ⟨_, _, _, rfl⟩
  obtain ⟨refuted, refutedCount, refutedNext, heq⟩ := hform
  obtain ⟨d', hres, hlive, hframe, -, hhis, htab⟩ :=
    restart_spec (h.counted d.opsSinceBoundary refuted refutedCount refutedNext) key'
  exact ⟨d', heq.trans hres, hlive, hhis, htab, (congrArg pos hframe :)⟩

theorem windowEntries_congr {fp fp' : Nat → Nat} {lo hi : Nat}
    (h : ∀ t, t < hi → fp t = fp' t) : windowEntries fp lo hi = windowEntries fp' lo hi := by
  have hsub : ∀ {f g : Nat → Nat}, (∀ t, t < hi → f t = g t) →
      windowEntries f lo hi ⊆ windowEntries g lo hi := by
    rintro f g h e ⟨t, rfl, hlo, hhi, hnew⟩
    refine ⟨t, by rw [h t hhi], hlo, hhi, fun t' ht ht' => ?_⟩
    rw [← h t hhi, ← h t' ht']
    exact hnew t' ht ht'
  exact (hsub h).antisymm (hsub fun t ht => (h t ht).symm)

variable {key' : Nat → Nat}

theorem Live.congr (h : d.Live key) (hsame : ∀ i, i < d.pos → key i = key' i) : d.Live key' := by
  have hkeys : streamKeys key d.pos = streamKeys key' d.pos :=
    map_congr_left fun i hi => hsame i (mem_range.mp hi)
  have hprint : ∀ t, t + detectorK ≤ d.pos → print key t = print key' t := fun t ht =>
    print_congr fun i hi => hsame (t + i) (by omega)
  refine ⟨hkeys ▸ h.tracks, ⟨hkeys ▸ h.holding.ring, ?_, h.holding.table_pow, h.holding.table_lt,
    fun hper => ?_⟩, h.fresh⟩
  · refine h.holding.prints.congr fun p _ hp => ?_
    exact prefixHash_congr fun i hi => hsame i (by omega)
  · obtain ⟨hind, hlin⟩ := h.holding.windows hper
    refine ⟨?_, fun s hlo hhi => ⟨fun t ht hts hle => ?_, fun hne => ?_⟩⟩
    · rwa [windowEntries_congr fun t ht => hprint t (by omega)] at hind
    · rw [← hprint t (by omega), ← hprint s (by omega)]
      exact (hlin s hlo hhi).skips t ht hts hle
    · obtain ⟨hle, hsame⟩ := (hlin s hlo hhi).earlier hne
      rw [← hprint (_ - 1) (by omega), ← hprint s (by omega)]
      exact ⟨hle, hsame⟩

theorem Live.next (h : d.Live key) (schemaHash shapeHash : Nat) :
    ∃ key', d.Live key' ∧ keyOf schemaHash shapeHash = key' d.pos ∧
      streamKeys key' d.pos = streamKeys key d.pos := by
  have hsame : ∀ i, i < d.pos → key i = Function.update key d.pos (keyOf schemaHash shapeHash) i :=
    fun i hi => (Function.update_of_ne hi.ne _ _).symm
  refine ⟨_, h.congr hsame, by rw [Function.update_self], ?_⟩
  exact map_congr_left fun i hi => (hsame i (mem_range.mp hi)).symm

theorem live_next (h : ∃ key, d.Live key) (schemaHash shapeHash : Nat) :
    ∃ key, d.Live key ∧ keyOf schemaHash shapeHash = key d.pos := by
  obtain ⟨key, hlive⟩ := h
  obtain ⟨key', hlive', hkey, -⟩ := hlive.next schemaHash shapeHash
  exact ⟨key', hlive', hkey⟩

theorem start_live (key : Nat → Nat) : ({} : IterationDetector).Live key := by
  refine ⟨start_tracks, ⟨start_tracks.ring, Ring.Holds.empty _ _ _ 0, ⟨0, rfl⟩,
    by decide, fun _ => ?_⟩,
    fun _ => ⟨rfl, rfl⟩⟩
  refine ⟨⟨⟨0, rfl⟩, by decide, ?_⟩, nofun⟩
  rw [windowEntries_empty (print key) (show (0 : Nat) + 1 - detectorK ≤ 0 by decide)]
  exact stores_empty fun _ _ => rfl

end Restart

end IterationDetector
end Crucible
