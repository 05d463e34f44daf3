import Crucible.DetectorContracts
import Crucible.DetectorOverfill
import Mathlib.Data.Nat.Periodic

/-! # A body that repeats is found

A body of `P` keys with pairwise different windows, fed over and over.  Before op `2P + K`
the history ends with no square, so the search accepts nothing.  At that op the link of the
newest window leads exactly one period back, so the search accepts `P` at its first phase and
reports.  From then on each boundary holds.  Two things end the run: a longer body fills the
table of a detector that was reset, and the counter of boundaries ends at its largest value.
-/
namespace Crucible
namespace IterationDetector
open OpenAddressing

/-- The keys of a body of `period` ops that repeats, with pairwise different windows. -/
structure Cycle (key : Nat → Nat) (period : Nat) : Prop where
  min_le : detectorK ≤ period
  le_max : period ≤ maxPeriod
  periodic : Function.Periodic key period
  distinct : ∀ s t, s < t → t < period → print key s ≠ print key t

namespace Cycle
variable {key : Nat → Nat} {period : Nat}

theorem period_pos (h : Cycle key period) : 0 < period :=
  lt_of_lt_of_le (by decide) h.min_le

theorem bound (h : Cycle key period) :
    2 * period + detectorK < historyMaxCapacity ∧ historyMaxCapacity = 2 ^ 19 := by
  have hle : period ≤ (historyMaxCapacity - detectorK - 1) / 2 := h.le_max
  have hmax : historyMaxCapacity = 2 ^ 19 := rfl
  have hK : detectorK = 5 := rfl
  omega

theorem print_periodic (h : Cycle key period) : Function.Periodic (print key) period := by
  intro s
  apply print_congr
  intro i _
  rw [add_right_comm]
  exact h.periodic (s + i)

variable {s t : Nat}

theorem mod_eq (h : Cycle key period) (heq : print key s = print key t) :
    s % period = t % period := by
  rw [← h.print_periodic.map_mod_nat s, ← h.print_periodic.map_mod_nat t] at heq
  have hs := Nat.mod_lt s h.period_pos
  have ht := Nat.mod_lt t h.period_pos
  by_contra hne
  rcases Nat.lt_or_gt_of_ne hne with hlt | hgt
  · exact h.distinct _ _ hlt ht heq
  · exact h.distinct _ _ hgt hs heq.symm

theorem print_ne (h : Cycle key period) (hlt : s < t) (hclose : t < s + period) :
    print key s ≠ print key t := by
  intro heq
  have hdvd : period ∣ t - s := (Nat.modEq_iff_dvd' hlt.le).mp (h.mod_eq heq)
  exact absurd (Nat.le_of_dvd (by omega) hdvd) (by omega)

theorem noSquare (h : Cycle key period) (hs : s < 2 * period) : NoSquare key s := by
  intro p hp htwice
  by_contra hall
  have hK : detectorK = 5 := rfl
  refine h.print_ne (s := s - 2 * p) (t := s - p) (by omega) (by omega) (print_congr ?_)
  intro i hi
  by_contra hne
  exact hall ⟨i, by omega, hne⟩

theorem link_eq (h : Cycle key period) {lo link : Nat}
    (hlink : Link (print key) lo (s + period) link) (hlo : lo ≤ s) : link = s + 1 := by
  have hpos := h.period_pos
  apply hlink.eq_succ hlo
  · omega
  · exact (h.print_periodic s).symm
  · intro t hst hlt
    exact h.print_ne hlt (by omega)

end Cycle

/-! ### The table of a body -/

section Answers
variable {d r : IterationDetector} {key : Nat → Nat} {period : Nat}

theorem Cycle.answers (h : Cycle key period) {lo hi : Nat} (hwin : d.Windowed key lo hi)
    (hsize : period ≤ d.tableMask + 1) (s : Nat) : d.Answers (print key s) := by
  by_cases hent : ∃ e, e ∈ windowEntries (print key) lo hi ∧ slotKey e = some (print key s)
  · obtain ⟨e, he, hkey⟩ := hent
    obtain ⟨-, c, hc, rfl⟩ := (hwin.indexed.stores.mem_iff e).mp he
    exact ⟨c, hc, .inr hkey⟩
  -- the entries are windows of the other phases, so at least one slot is unused
  have hcard : (occupied slotKey (d.tableMask + 1) d.table).card ≤ period - 1 := by
    refine hwin.indexed.stores.card_le
      (fun e => (e.startPlusOne - 1 + (period - s % period)) % period) ?_ ?_
    · rintro e ⟨t, rfl, hlo, hhi, hnew⟩
      have hpos := h.period_pos
      refine ⟨Nat.one_le_iff_ne_zero.mpr fun hzero => hent ⟨_, ⟨t, rfl, hlo, hhi, hnew⟩, ?_⟩,
        Nat.mod_lt _ hpos⟩
      have hs := Nat.mod_lt s hpos
      have hsame : t ≡ s [MOD period] := by
        refine Nat.ModEq.add_right_cancel' (period - s % period) ?_
        have hround : s + (period - s % period) = period * (s / period + 1) := by
          have hspl := Nat.div_add_mod s period
          rw [mul_add]
          omega
        rw [hround]
        exact hzero.trans (Nat.mul_mod_right period _).symm
      rw [← h.print_periodic.map_mod_nat s, ← h.print_periodic.map_mod_nat t]
      exact congrArg (fun x => some (print key x)) hsame
    · rintro e e' ⟨t, rfl, hlo, hhi, hnew⟩ ⟨t', rfl, hlo', hhi', hnew'⟩ heq
      have hsame : t ≡ t' [MOD period] :=
        Nat.ModEq.add_right_cancel' (period - s % period) heq
      have hprint : print key t = print key t' := by
        rw [← h.print_periodic.map_mod_nat t, ← h.print_periodic.map_mod_nat t']
        exact congrArg (print key) hsame
      rcases lt_trichotomy t t' with hlt | rfl | hgt
      · exact absurd hprint.symm (hnew t' hlt hhi')
      · rfl
      · exact absurd hprint (hnew' t hgt hhi)
  have hroom : d.HasRoom := Stores.exists_unused (hcard.trans_lt (by omega))
  exact hroom.answers _

/-- The sizes of a detector that has searched a body from its start, with `ring` slots in
its ring and `slots` slots in its table at that time. -/
structure Sized (d : IterationDetector) (ring slots : Nat) : Prop where
  base_eq : d.base = 0
  sizes_or : d.historyMask < d.tableMask + detectorK ∨
    (d.historyMask + 1 = ring ∧ d.tableMask + 1 = slots)

theorem RoomSizes.sized {n ring slots : Nat} (h : RoomSizes d r) (hsiz : d.Sized ring slots)
    (hper : d.period = 0) (hpos : d.pos = n) (hshort : n + 1 < historyMaxCapacity) :
    r.Sized ring slots := by
  obtain ⟨hbase, hor⟩ := hsiz
  cases h with
  | fits _ _ hbase' hhis htab =>
    refine ⟨hbase'.trans hbase, ?_⟩
    rwa [hhis, htab]
  | drops hfull hlar => omega
  | grows _ _ hbase' hsear _ =>
    exact ⟨hbase'.trans hbase, .inl (by omega)⟩

/-- The probes of a search for the body end, unless the body is longer than a table that is
smaller than the ring. -/
theorem Cycle.unblocked (h : Cycle key period) {n ring slots : Nat} (hs : d.Searching key n)
    (hsiz : d.Sized ring slots) (hshort : n + 1 < historyMaxCapacity)
    (hroom : period ≤ slots ∨ ring < slots + detectorK ∨ n + 1 < slots + detectorK) :
    d.Unblocked key := by
  have hpos := hs.pos_eq
  have hor := hsiz.sizes_or
  constructor
  · intro _ hlar hfull
    omega
  intro r hr hper hlong
  have hrpos : r.pos = d.pos + 1 := hr.core.pos_eq
  have hwin := hr.holding.windows hper
  have hslots : r.pos - (r.base - 1) ≤ r.historyMask + 1 := hr.holding.ring.room
  cases hr.sizes with
  | fits _ hfits hbase' hhis htab =>
    by_cases hlong : period ≤ r.tableMask + 1
    · exact h.answers hwin hlong _
    · have hroom : r.HasRoom := hwin.indexed.hasRoom (by omega)
      exact hroom.answers _
  | drops hfull hlar => omega
  | grows _ _ _ hsear _ =>
    have hsize := hsear hs.period_eq
    have hroom : r.HasRoom := hwin.indexed.hasRoom (by omega)
    exact hroom.answers _

end Answers

/-! ### Acceptance -/

/-- The detector holds the period of the body, after `boundaries` reports. -/
structure Locked (d : IterationDetector) (key : Nat → Nat) (period boundaries : Nat) : Prop where
  live : d.Live key
  period_eq : d.period = period
  next_eq : d.nextBoundary = (boundaries + 2) * period
  pos_ge : (boundaries + 1) * period + detectorK ≤ d.pos
  ops_eq : d.opsSinceBoundary + (boundaries + 1) * period = d.pos
  boundaries_eq : d.boundariesDetected = boundaries
  last_eq : d.lastCompletedLen = period

section Accept
variable {d : IterationDetector} {key : Nat → Nat} {period : Nat} {op : Nat → Nat × Nat}

theorem Cycle.bestPhase (h : Cycle key period) (hwin : d.Windowed key 0 (2 * period + 1)) :
    d.bestPhase period period = .ok (0, 1) := by
  have hpos := h.period_pos
  have hstep : ∀ phase, phase < period → ∀ best, d.bestPhaseStep period period best phase =
        .ok (if 1 < best.2 then (phase, 1) else best) := by
    intro phase hphase best
    have hlink := hwin.links (phase + period) zero_le (by omega)
    have hlink := h.link_eq hlink zero_le
    rw [add_comm] at hlink
    refine bestPhaseStep_count phase 1 hlink (by omega) ?_
    rw [countCopies, if_neg (by omega)]
  obtain ⟨best, hfold, hbest⟩ := foldlM_range_ok (n := period) (s := (0, u64Max))
    (fun n best => best = if n = 0 then (0, u64Max) else (0, 1)) rfl fun n best hn hbest => by
      refine ⟨_, hstep n hn best, ?_⟩
      rw [hbest]
      cases n <;> rfl
  rwa [hbest, if_neg (by omega)] at hfold

/-- **The body is accepted** at the op that completes the first window after two copies. -/
theorem Cycle.accepts (h : Cycle (opKey op) period) {n ring slots : Nat}
    (hn : n + 1 = 2 * period + detectorK)
    (hs : d.Searching (opKey op) n) (hsiz : d.Sized ring slots)
    (hunb : d.Unblocked (opKey op)) :
    ∃ d', d.check (op n).1 (op n).2 = .ok (d', true) ∧ d'.Locked (opKey op) period 1 ∧
      d'.pos = n + 1 := by
  have hu : u32Max = 2 ^ 32 - 1 := rfl
  obtain ⟨hperM, hmax⟩ := h.bound
  have hmin := h.min_le
  have hpos := hs.pos_eq
  have hkey : keyOf (op n).1 (op n).2 = opKey op d.pos := by
    rw [hpos]
    rfl
  obtain ⟨r, out, heq, hr, hchec, hlive⟩ :=
    check_spec hs.live hunb hkey (by rw [hs.ops_eq]; omega)
  obtain ⟨hrper, hrpos, -, hrbound, hrref⟩ := hs.received hr
  have hrsig : r.signatureLen = min r.pos detectorK := hr.core.sig hs.live.tracks
  have hrbase : r.base = 0 :=
    (hr.sizes.sized hsiz hs.period_eq hpos (by omega)).base_eq
  have hstart : r.pos - detectorK = period + period := by omega
  -- the link leads one period back, to a square of the history
  have hfound : ∀ linked link, Linked r linked (opKey op) link → ∃ bodySum,
      linked.searchLoop (r.pos - detectorK) maxCandidates link = some (period, bodySum) := by
    intro linked link hlin
    obtain ⟨-, hlpos, -, -, hlref⟩ := hlin.same
    have hlbase : linked.base = 0 := hlin.base_eq.trans hrbase
    have hlink := hlin.link
    rw [hstart] at hlink ⊢
    obtain rfl := h.link_eq hlink (by omega)
    have hback : period + period - (period + 1 - 1) = period := Nat.add_sub_cancel _ _
    have hsquare : linked.isSquare (period + period) period = true := by
      refine hlin.holding.isSquare_of (by omega) (by omega) (by omega) fun i _ => ?_
      have hzero : period + period - 2 * period = 0 := by omega
      rw [hzero, Nat.add_sub_cancel, zero_add, add_comm]
      exact (h.periodic i).symm
    have hloop := @searchLoop_found linked (period + period) (maxCandidates - 1) (period + 1)
      (Nat.succ_ne_zero period) (by omega) (by omega) (by omega) (by rw [hback]; exact hsquare)
      (hlref.trans hrref)
    rw [hback, wrap32_of_lt (by omega)] at hloop
    exact ⟨_, hloop⟩
  rw [heq]
  cases hchec with
  | idle hidle =>
    rcases hidle with hshort | ⟨hne, -⟩
    · omega
    · exact absurd hrper hne
  | holds hne => exact absurd hrper hne
  | breaks hne => exact absurd hrper hne
  | misses _ hlin hloop =>
    obtain ⟨bodySum, hsome⟩ := hfound _ _ hlin
    rw [hsome] at hloop
    cases hloop
  | @accepts linked link length bodySum phase count _ hlin hloop _ _ _ _ hbest =>
    obtain ⟨bodySum', hsome⟩ := hfound _ _ hlin
    obtain ⟨rfl, -⟩ := Prod.mk.inj (Option.some.inj (hloop.symm.trans hsome))
    obtain ⟨hlzero, hlpos, -, hlbound, -⟩ := hlin.same
    have hwin := hlin.holding.windows (hlzero.trans hrper)
    rw [hlin.base_eq, hrbase, show linked.pos + 1 - detectorK = 2 * length + 1 by omega]
      at hwin
    rw [hstart, Nat.add_sub_cancel, h.bestPhase hwin] at hbest
    obtain ⟨rfl, rfl⟩ := Prod.mk.inj (Except.ok.inj hbest)
    rw [if_pos rfl, if_neg (by rw [hrbound]; decide)] at hlive ⊢
    refine ⟨_, rfl, ⟨hlive _ _ rfl, rfl, ?_, ?_, ?_, ?_, rfl⟩, hlpos.trans hrpos⟩
    · show r.pos - detectorK + length = (1 + 2) * length
      omega
    · show (1 + 1) * length + detectorK ≤ linked.pos
      omega
    · show detectorK + (1 + 1) * length = linked.pos
      omega
    · show linked.boundariesDetected + 1 = 1
      rw [hlbound, hrbound]

/-- **One check while the period of the body holds.** -/
theorem Locked.step (h : Cycle (opKey op) period) {n boundaries : Nat}
    (hd : d.Locked (opKey op) period boundaries) (hpos : d.pos = n) :
    if n + 1 = (boundaries + 2) * period + detectorK then
      if boundaries = u32Max then d.check (op n).1 (op n).2 = .error .contract
      else ∃ d', d.check (op n).1 (op n).2 = .ok (d', true) ∧
        d'.Locked (opKey op) period (boundaries + 1) ∧ d'.pos = n + 1
    else ∃ d', d.check (op n).1 (op n).2 = .ok (d', false) ∧
      d'.Locked (opKey op) period boundaries ∧ d'.pos = n + 1 := by
  have hK : detectorK = 5 := rfl
  have hu : u32Max = 2 ^ 32 - 1 := rfl
  obtain ⟨hperM, hmax⟩ := h.bound
  have hmin := h.min_le
  have hper := hd.period_eq
  have hnext := hd.next_eq
  have hge := hd.pos_ge
  have hops := hd.ops_eq
  have hne : d.period ≠ 0 := by omega
  have hahead : d.pos < d.nextBoundary + detectorK := hd.live.tracks.ahead hne
  have hmul : (boundaries + 2) * period = (boundaries + 1) * period + period := Nat.succ_mul _ _
  have hkey : keyOf (op n).1 (op n).2 = opKey op d.pos := by
    rw [hpos]
    rfl
  obtain ⟨r, out, heq, hr, hchec, hlive⟩ := check_spec hd.live
    (hd.live.unblocked fun hzero => absurd hzero hne) hkey (by omega)
  have hframe := hr.frame_eq
  have hrpos : r.pos = n + 1 := hr.core.pos_eq.trans (congrArg (· + 1) hpos)
  have hrper : r.period = period := hr.core.period_eq.trans hper
  have hrnext : r.nextBoundary = (boundaries + 2) * period := hr.core.next_eq.trans hnext
  have hrsig : r.signatureLen = min r.pos detectorK := hr.core.sig hd.live.tracks
  have hrbound : r.boundariesDetected = boundaries :=
    (congrArg IterationDetector.boundariesDetected hframe :).trans hd.boundaries_eq
  have hrops : r.opsSinceBoundary = d.opsSinceBoundary + 1 :=
    (congrArg IterationDetector.opsSinceBoundary hframe :)
  have hrlast : r.lastCompletedLen = period :=
    (congrArg IterationDetector.lastCompletedLen hframe :).trans hd.last_eq
  have hrne : r.period ≠ 0 := by omega
  have hbod : r.base + 2 * r.period ≤ r.nextBoundary := hr.core.bodies hd.live.tracks hrne
  -- a boundary that is due holds, since the keys repeat
  have hgood : r.pos = r.nextBoundary + detectorK → r.isSquare r.nextBoundary r.period = true ∧
      r.windowsEqual (r.nextBoundary - r.period) r.nextBoundary detectorK = true := by
    intro hdue
    have hback : ∀ i, r.period ≤ i → opKey op (i - r.period) = opKey op i := by
      intro i hi
      have hsame := h.periodic (i - r.period)
      rwa [hrper, Nat.sub_add_cancel (hrper ▸ hi), eq_comm, ← hrper] at hsame
    constructor
    · refine hr.holding.isSquare_of hbod (by omega) (by omega) fun i _ => ?_
      rw [← hback (r.nextBoundary - r.period + i) (by omega)]
      congr 1
      omega
    · refine hr.holding.windowsEqual_of (by omega) (by omega) (by omega) (by omega) (by decide)
        fun i _ => ?_
      rw [← hback (r.nextBoundary + i) (by omega)]
      congr 1
      omega
  rw [heq]
  cases hchec with
  | idle hidle =>
    have hnot : n + 1 ≠ (boundaries + 2) * period + detectorK := by
      rcases hidle with hshort | ⟨-, hne⟩
      · omega
      · rwa [← hrpos, ← hrnext]
    rw [if_neg hnot]
    exact ⟨r, rfl, ⟨hlive r false rfl, hrper, hrnext, by omega, by omega, hrbound, hrlast⟩, hrpos⟩
  | holds _ hdue =>
    rw [if_pos (show n + 1 = (boundaries + 2) * period + detectorK by omega)]
    rw [hrbound] at hlive ⊢
    by_cases hend : boundaries = u32Max
    · rw [if_pos hend, if_pos hend]
    · rw [if_neg hend] at hlive
      rw [if_neg hend, if_neg hend]
      refine ⟨_, rfl, ⟨hlive _ _ rfl, hrper, ?_, ?_, ?_, ?_, hrper⟩, hrpos⟩
      · show r.nextBoundary + r.period = (boundaries + 1 + 2) * period
        rw [hrnext, hrper, ← Nat.succ_mul]
      · show (boundaries + 2) * period + detectorK ≤ r.pos
        omega
      · show detectorK + (boundaries + 2) * period = r.pos
        omega
      · show r.boundariesDetected + 1 = boundaries + 1
        rw [hrbound]
  | breaks _ hdue hbad => exact absurd (hgood hdue) hbad
  | misses hzero => exact absurd hzero hrne
  | accepts hzero => exact absurd hzero hrne

end Accept

/-! ### Whole runs -/

/-- A body of `period` ops, over and over. -/
def repeated (period : Nat) (body : Nat → Nat × Nat) (i : Nat) : Nat × Nat := body (i % period)

/-- A run of `n` checks: each op that completes an iteration, by its number from one, with the
length of the iteration. -/
def reports (d : IterationDetector) (op : Nat → Nat × Nat) :
    Nat → Except Fault (IterationDetector × List (Nat × Nat))
  | 0 => .ok (d, [])
  | n + 1 => do
    let (d, found) ← d.reports op n
    let (d, b) ← d.check (op n).1 (op n).2
    .ok (d, if b then found ++ [(n + 1, d.lastCompletedLen)] else found)

/-- Op number `n` completes a copy of the body: `n` is `2P + K`, `3P + K`, and so on. -/
def IsBoundary (period n : Nat) : Prop :=
  2 * period + detectorK ≤ n ∧ (n - detectorK) % period = 0

instance (period n : Nat) : Decidable (IsBoundary period n) := inferInstanceAs (Decidable (_ ∧ _))

/-- The boundaries among the first `n` ops of a body of `period` ops. -/
def boundariesUpTo (period n : Nat) : List (Nat × Nat) :=
  ((List.range (n + 1)).filter fun i => IsBoundary period i).map (·, period)

/-- A new detector, or one that was reset. -/
def Ready (d : IterationDetector) : Prop :=
  d = {} ∨ ∃ calls e, runCalls {} calls = .ok e ∧ e.reset = .ok d

section Runs
variable {d : IterationDetector} {period n : Nat} {body : Nat → Nat × Nat} {op : Nat → Nat × Nat}

theorem boundariesUpTo_succ (period n : Nat) : boundariesUpTo period (n + 1) =
      if IsBoundary period (n + 1) then boundariesUpTo period n ++ [(n + 1, period)]
      else boundariesUpTo period n := by
  rw [boundariesUpTo, List.range_succ]
  by_cases hb : IsBoundary period (n + 1)
  · simp [hb, boundariesUpTo]
  · simp [hb, boundariesUpTo]

theorem isBoundary_iff {boundaries : Nat} (hpos : 0 < period) (hone : 1 ≤ boundaries)
    (hlo : (boundaries + 1) * period + detectorK < n)
    (hhi : n ≤ (boundaries + 2) * period + detectorK) :
    IsBoundary period n ↔ n = (boundaries + 2) * period + detectorK := by
  have hmul : (boundaries + 2) * period = (boundaries + 1) * period + period := Nat.succ_mul _ _
  have htwo : 2 * period ≤ (boundaries + 1) * period := Nat.mul_le_mul_right _ (by omega)
  obtain ⟨after, rfl⟩ : ∃ after, n = (boundaries + 1) * period + after + detectorK :=
    ⟨n - detectorK - (boundaries + 1) * period, by omega⟩
  rw [IsBoundary, Nat.add_sub_cancel]
  constructor
  · rintro ⟨-, hmod⟩
    by_contra hne
    rw [mul_comm, Nat.mul_add_mod, Nat.mod_eq_of_lt (by omega)] at hmod
    omega
  · intro heq
    refine ⟨by omega, ?_⟩
    obtain rfl : after = period := by omega
    rw [← Nat.succ_mul]
    exact Nat.mul_mod_left _ _

theorem reports_succ {mid d' : IterationDetector} {found : List (Nat × Nat)} {b : Bool}
    (hrun : d.reports op n = .ok (mid, found))
    (hcheck : mid.check (op n).1 (op n).2 = .ok (d', b)) :
    d.reports op (n + 1) =
      .ok (d', if b then found ++ [(n + 1, d'.lastCompletedLen)] else found) := by
  rw [reports, bind_of_ok hrun]
  exact bind_of_ok hcheck

theorem reports_le {m : Nat} {out : IterationDetector × List (Nat × Nat)} (hle : n ≤ m)
    (hrun : d.reports op m = .ok out) :
    ∃ mid found, d.reports op n = .ok (mid, found) ∧ d.runCalls (feed op n) = .ok mid := by
  induction m generalizing out n with
  | zero =>
    obtain rfl : n = 0 := Nat.le_zero.mp hle
    exact ⟨d, [], rfl, rfl⟩
  | succ m ih =>
    obtain ⟨⟨mid, found⟩, hmid, hrest⟩ := bind_ok hrun
    rcases Nat.lt_or_eq_of_le hle with hlt | rfl
    · exact ih (Nat.le_of_lt_succ hlt) hmid
    · obtain ⟨⟨d', b⟩, hcheck, -⟩ := bind_ok hrest
      obtain ⟨mid', found', hrun', hcal⟩ := ih (Nat.le_refl m) hmid
      cases hmid.symm.trans hrun'
      exact ⟨d', _, reports_succ hmid hcheck, runCalls_feed_succ hcal hcheck⟩

/-- Where a detector is in the stream of a body. -/
inductive Phase (d : IterationDetector) (key : Nat → Nat) (period ring slots n : Nat) : Prop
  | searching (hshort : n < 2 * period + detectorK) (hs : d.Searching key n)
      (hsized : d.Sized ring slots)
  | locked {boundaries : Nat} (hone : 1 ≤ boundaries) (hlocked : d.Locked key period boundaries)
      (hpos : d.pos = n)

/-- **One check of the stream of a body.** -/
theorem Phase.step {ring slots : Nat} (h : Cycle (opKey op) period)
    (hphase : d.Phase (opKey op) period ring slots n)
    (hend : n + 1 < (2 ^ 32 + 1) * period + detectorK)
    (hroom : period ≤ slots ∨ ring < slots + detectorK ∨ n + 1 < slots + detectorK) :
    ∃ d' b, d.check (op n).1 (op n).2 = .ok (d', b) ∧
      d'.Phase (opKey op) period ring slots (n + 1) ∧
      (b = true ↔ IsBoundary period (n + 1)) ∧ (b = true → d'.lastCompletedLen = period) := by
  have hu : u32Max = 2 ^ 32 - 1 := rfl
  obtain ⟨hperM, hmax⟩ := h.bound
  have hpos := h.period_pos
  cases hphase with
  | searching hshort hs hsiz =>
    have hunb := h.unblocked hs hsiz (by omega) hroom
    by_cases hlast : n + 1 = 2 * period + detectorK
    · obtain ⟨d', hcheck, hloc, hpos'⟩ := h.accepts hlast hs hsiz hunb
      refine ⟨d', true, hcheck, .locked (Nat.le_refl 1) hloc hpos', ?_, fun _ => hloc.last_eq⟩
      refine iff_of_true rfl ⟨by omega, ?_⟩
      rw [hlast]
      exact Nat.mul_mod_left _ _
    · obtain ⟨d', hcheck, hs', hsizes⟩ := hs.step hunb (by omega)
        fun _ => h.noSquare (by omega)
      refine ⟨d', false, hcheck, .searching (by omega) hs' ?_, ?_, nofun⟩
      · exact hsizes.sized hsiz hs.period_eq hs.pos_eq (by omega)
      · refine iff_of_false Bool.false_ne_true fun hb => ?_
        have hle := hb.1
        omega
  | @locked boundaries hone hloc hdpos =>
    have hge := hloc.pos_ge
    have hnext := hloc.next_eq
    have hahead : d.pos < d.nextBoundary + detectorK :=
      hloc.live.tracks.ahead (show d.period ≠ 0 by rw [hloc.period_eq]; omega)
    have hiff := isBoundary_iff (n := n + 1) hpos hone (by omega) (by omega)
    have hstep := hloc.step h hdpos
    by_cases hdue : n + 1 = (boundaries + 2) * period + detectorK
    · have hbel : boundaries ≠ u32Max := by
        rintro rfl
        have hsum : (u32Max + 2) * period = (2 ^ 32 + 1) * period := rfl
        omega
      rw [if_pos hdue, if_neg hbel] at hstep
      obtain ⟨d', hcheck, hloc', hpos'⟩ := hstep
      exact ⟨d', true, hcheck, .locked (Nat.le_succ_of_le hone) hloc' hpos',
        iff_of_true rfl (hiff.mpr hdue), fun _ => hloc'.last_eq⟩
    · rw [if_neg hdue] at hstep
      obtain ⟨d', hcheck, hloc', hpos'⟩ := hstep
      exact ⟨d', false, hcheck, .locked hone hloc' hpos',
        iff_of_false Bool.false_ne_true fun hb => hdue (hiff.mp hb), nofun⟩

/-- **A run on the stream of a body** reports every boundary and nothing else. -/
theorem Idle.body_run (hd : d.Idle) (h : Cycle (opKey op) period)
    (hend : n < (2 ^ 32 + 1) * period + detectorK)
    (hroom : period ≤ d.tableMask + 1 ∨ d.historyMask + 1 < d.tableMask + 1 + detectorK ∨
      n < d.tableMask + 1 + detectorK) :
    ∃ d', d.reports op n = .ok (d', boundariesUpTo period n) ∧
      d'.Phase (opKey op) period (d.historyMask + 1) (d.tableMask + 1) n := by
  induction n with
  | zero =>
    refine ⟨d, ?_, .searching (by omega) (hd.searching _) ⟨hd.base_eq, .inr ⟨rfl, rfl⟩⟩⟩
    have hnone : ¬ IsBoundary period 0 := fun hb => by
      have hle := hb.1
      omega
    simp [boundariesUpTo, hnone, reports]
  | succ n ih =>
    obtain ⟨mid, hrun, hphase⟩ := ih (by omega) (by omega)
    obtain ⟨d', b, hcheck, hphase', hiff, hlast⟩ := hphase.step h hend hroom
    refine ⟨d', ?_, hphase'⟩
    rw [reports_succ hrun hcheck, boundariesUpTo_succ]
    cases b with
    | true => rw [if_pos rfl, if_pos (hiff.mp rfl), hlast rfl]
    | false => rw [if_neg Bool.false_ne_true, if_neg (mt hiff.mpr Bool.false_ne_true)]

theorem Idle.body_overflow (hd : d.Idle) (h : Cycle (opKey op) period)
    (hn : n + 1 = (2 ^ 32 + 1) * period + detectorK)
    (hroom : period ≤ d.tableMask + 1 ∨ d.historyMask + 1 < d.tableMask + 1 + detectorK ∨
      n < d.tableMask + 1 + detectorK) : d.reports op (n + 1) = .error .contract := by
  obtain ⟨mid, hrun, hphase⟩ := hd.body_run h (by omega) hroom
  have hpos := h.period_pos
  cases hphase with
  | searching hshort =>
    omega
  | @locked boundaries hone hloc hmpos =>
    -- the number of the op determines the number of reports
    have hge := hloc.pos_ge
    have hnext := hloc.next_eq
    have hahead : mid.pos < mid.nextBoundary + detectorK :=
      hloc.live.tracks.ahead (show mid.period ≠ 0 by rw [hloc.period_eq]; omega)
    have hlast : boundaries = u32Max := by
      have hlo : (boundaries + 1) * period < (2 ^ 32 + 1) * period := by omega
      have hhi : (2 ^ 32 + 1) * period ≤ (boundaries + 2) * period := by omega
      have hlo := Nat.lt_of_mul_lt_mul_right hlo
      have hhi := Nat.le_of_mul_le_mul_right hhi hpos
      have hu : u32Max = 2 ^ 32 - 1 := rfl
      omega
    have hstep := hloc.step h hmpos
    rw [hlast, if_pos (show n + 1 = (u32Max + 2) * period + detectorK from hn)] at hstep
    rw [reports, bind_of_ok hrun]
    show (mid.check (op n).1 (op n).2 >>= _) = _
    rw [hstep]
    rfl

theorem Ready.idle (h : d.Ready) : d.Idle := by
  rcases h with rfl | ⟨calls, e, hrun, hres⟩
  · exact ⟨fun key => ⟨start_live key, rfl, rfl, rfl, rfl, rfl⟩, rfl⟩
  · obtain ⟨key, hlive⟩ := foldlM_inv (fun d : IterationDetector => ∃ key, d.Live key)
      ⟨fun _ => 0, start_live _⟩ (fun _ _ _ _ h hcall => call_live h hcall) hrun
    obtain ⟨d', hres', hidle, -⟩ := reset_idle hlive
    cases hres'.symm.trans hres
    exact hidle

theorem cycle_repeated (hmin : detectorK ≤ period) (hmax : period ≤ maxPeriod)
    (hdis : ∀ s t, s < t → t < period →
      print (opKey (repeated period body)) s ≠ print (opKey (repeated period body)) t) :
    Cycle (opKey (repeated period body)) period := by
  refine ⟨hmin, hmax, fun i => ?_, hdis⟩
  rw [opKey, repeated, Nat.add_mod_right]
  rfl

/-- **A body that repeats is reported** at ops `2P + K`, `3P + K` and so on and at no other,
each time with its length, exactly as long as the counter of boundaries lasts and the table
does not fill up: the table has a slot for each window of the body, or the ring is not larger
than the table, or the run is too short to fill it. -/
theorem body_reports (hd : d.Ready) (hmin : detectorK ≤ period) (hmax : period ≤ maxPeriod)
    (hdistinct : ∀ s t, s < t → t < period →
      print (opKey (repeated period body)) s ≠ print (opKey (repeated period body)) t) (n : Nat) :
    (∃ d', d.reports (repeated period body) n = .ok (d', boundariesUpTo period n)) ↔
      n < (2 ^ 32 + 1) * period + detectorK ∧
        (period ≤ d.tableMask + 1 ∨ d.historyMask + 1 < d.tableMask + 1 + detectorK ∨
          n < d.tableMask + 1 + detectorK) := by
  have h := cycle_repeated hmin hmax hdistinct
  have hidle := hd.idle
  constructor
  · rintro ⟨d', hrun⟩
    have hroom : period ≤ d.tableMask + 1 ∨ d.historyMask + 1 < d.tableMask + 1 + detectorK ∨
        n < d.tableMask + 1 + detectorK := by
      by_contra hfull
      -- the windows before the first copy ends fill the table
      obtain ⟨mid, found, -, hcalls⟩ := reports_le (n := d.tableMask + 1 + detectorK)
        (by omega) hrun
      rw [fill_endless hidle (by omega) fun s t hst ht => hdistinct s t hst (by omega)] at hcalls
      cases hcalls
    by_contra hlong
    obtain ⟨m, hm⟩ : ∃ m, m + 1 = (2 ^ 32 + 1) * period + detectorK := ⟨_, rfl⟩
    obtain ⟨mid, found, hmid, -⟩ := reports_le (n := m + 1) (by omega) hrun
    rw [hidle.body_overflow h hm (by omega)] at hmid
    cases hmid
  · rintro ⟨hend, hroom⟩
    obtain ⟨d', hrun, -⟩ := hidle.body_run h hend hroom
    exact ⟨d', hrun⟩

def fiveOps (i : Nat) : Nat × Nat := (i, 0)

theorem fiveOps_distinct : ∀ s t, s < t → t < 5 →
    print (opKey (repeated 5 fiveOps)) s ≠ print (opKey (repeated 5 fiveOps)) t := by
  have hall : ∀ t, t < 5 → ∀ s, s < t →
      print (opKey (repeated 5 fiveOps)) s ≠ print (opKey (repeated 5 fiveOps)) t := by
    decide +kernel
  exact fun s t hst ht => hall t ht s hst

theorem body_reports_five :
    ∃ d', reports {} (repeated 5 fiveOps) 22 = .ok (d', [(15, 5), (20, 5)]) :=
  (body_reports (.inl rfl) (by decide) (by decide) fiveOps_distinct 22).mpr
    ⟨by decide, .inr (.inl (by decide))⟩

/-- The stream of a body of five ops ends with a contract at its boundary number `2^32`. -/
theorem body_stream_aborts :
    reports {} (repeated 5 fiveOps) ((2 ^ 32 + 1) * 5 + detectorK) = .error .contract := by
  have hidle : ({} : IterationDetector).Idle := Ready.idle (.inl rfl)
  have hcycle := @cycle_repeated 5 fiveOps (by decide) (by decide) fiveOps_distinct
  exact hidle.body_overflow hcycle rfl (.inr (.inl (by decide)))

end Runs
end IterationDetector
end Crucible
