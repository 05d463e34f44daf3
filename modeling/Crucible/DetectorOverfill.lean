import Crucible.DetectorLoad

/-! # A search that never ends

A stream with as many different windows as the table has slots fills the table when the
ring is much larger, and the next probe never ends (`fill_endless`).

The ring gets that large while a period holds.  A body whose first window repeats is
accepted with a later phase, so its first boundary lies a few ops ahead, and the ring can
fill up before it.  The ring then doubles, the table does not, and a restart keeps both
(`grow_episode`).  Two such episodes are enough.
-/
namespace Crucible
namespace IterationDetector
open OpenAddressing

/-! ### A full table -/

section Fill
variable {d : IterationDetector} {op : Nat → Nat × Nat}

/-- A detector at the start of every stream. -/
structure Idle (d : IterationDetector) : Prop where
  searching : ∀ key, d.Searching key 0
  base_eq : d.base = 0

theorem Idle.quiet_run (h : d.Idle) {n : Nat} (hn : n ≤ u32Max) (hmask : d.historyMask ≠ 0)
    (hfits : n ≤ d.historyMask + 1)
    (hroom : d.historyMask ≤ d.tableMask ∨ n ≤ d.tableMask + detectorK)
    (hnone : ∀ s, s + detectorK ≤ n → NoSquare (opKey op) s) :
    ∃ d', d.runCalls (feed op n) = .ok d' ∧ d'.Searching (opKey op) n ∧
      d'.historyMask = d.historyMask ∧ d'.tableMask = d.tableMask ∧ d'.base = 0 := by
  refine IterationDetector.quiet_run
    (fun e => e.historyMask = d.historyMask ∧ e.tableMask = d.tableMask ∧ e.base = 0) hn
    (h.searching (opKey op)) ⟨rfl, rfl, h.base_eq⟩ ?_ ?_ hnone
  · rintro i e hi he ⟨hhis, htab, -⟩
    refine he.live.unblocked fun _ => ?_
    rw [he.pos_eq]
    omega
  · rintro i e e' hi he ⟨hhis, htab, hbase⟩ hsiz
    have hpos := he.pos_eq
    have hkept := hsiz.kept hbase (by omega) (by omega)
    rwa [hhis, htab] at hkept

theorem all_slots_used {key : Nat → Nat} (h : d.Windowed key 0 (d.tableMask + 1))
    (hinj : ∀ s t, s < t → t ≤ d.tableMask + 1 → print key s ≠ print key t) {c : Nat}
    (hc : c < d.tableMask + 1) :
    ∃ other, slotKey (d.table c) = some other ∧ other ≠ print key (d.tableMask + 1) := by
  have hused := h.indexed.stores.all_used (fun t => ⟨t + 1, print key t⟩)
    (fun t ht => ⟨t, rfl, Nat.zero_le t, ht, fun t' hlt hlt' heq => ?_⟩) ?_ hc
  · -- the key in use is the one of an earlier window
    have hmem : d.table c ∈ windowEntries (print key) 0 (d.tableMask + 1) :=
      (h.indexed.stores.mem_iff _).mpr ⟨hused, c, hc, rfl⟩
    obtain ⟨t, heq, -, ht, -⟩ := hmem
    refine ⟨print key t, by rw [heq]; exact slotKey_of_ne (Nat.succ_ne_zero t), ?_⟩
    exact hinj t _ ht le_rfl
  · exact hinj t t' hlt hlt'.le heq.symm
  · intro i j _ _ heq
    have hstart := congrArg TableSlot.startPlusOne heq
    exact Nat.succ.inj hstart

/-- **A search fills a table that is smaller than the ring, and then never ends.** -/
theorem fill_endless (h : d.Idle) (hring : d.tableMask + 1 + detectorK ≤ d.historyMask + 1)
    (hinj : ∀ s t, s < t → t ≤ d.tableMask + 1 → print (opKey op) s ≠ print (opKey op) t) :
    d.runCalls (feed op (d.tableMask + 1 + detectorK)) = .error .endless := by
  have hK : detectorK = 5 := rfl
  have hmax : historyMaxCapacity = 2 ^ 19 := rfl
  have hcap : d.historyMask + 1 ≤ historyMaxCapacity :=
    (h.searching (opKey op)).live.tracks.ring.mask_le
  have hu : u32Max = 2 ^ 32 - 1 := rfl
  obtain ⟨mid, hrun, hmid, hhis, htab, hbase⟩ := h.quiet_run
    (show d.tableMask + detectorK ≤ u32Max by omega) (by omega) (by omega) (.inr le_rfl)
    fun s hs => noSquare_of_print fun t t' hlt hlt' => hinj t t' hlt (by omega)
  -- the next op is received, and its window has no slot
  have hpos := hmid.pos_eq
  obtain ⟨r, hrec, hr⟩ := (receive_cases hmid.live
    (show keyOf (op (d.tableMask + detectorK)).1 (op (d.tableMask + detectorK)).2 =
      opKey op mid.pos by rw [hpos]; rfl)
    (show mid.opsSinceBoundary ≠ u32Max by rw [hmid.ops_eq]; omega)).resolve_left
    fun hend => hend.2 (show mid.DropRoom by intro _ _ hfull; omega)
  obtain ⟨hrper, hrpos, -⟩ := hmid.received hr
  have hrsig : r.signatureLen = min r.pos detectorK := hr.core.sig hmid.live.tracks
  obtain ⟨hrhis, hrtab, hrbase⟩ := hr.sizes.kept hbase (by omega) (by omega)
  have hstart : r.pos - detectorK = r.tableMask + 1 := by omega
  have hwin := hr.holding.windows hrper
  rw [hrbase, hstart] at hwin
  have hprobe : r.probe (r.windowFingerprint (r.pos - detectorK)) = .error .endless := by
    rw [hstart, hr.holding.prints.windowFingerprint (by omega) (by omega)]
    exact probe_endless hwin.indexed.pow fun c hc =>
      all_slots_used hwin (fun s t hst ht => hinj s t hst (by omega)) hc
  refine runCalls_feed_fault (n := d.tableMask + detectorK) hrun ?_
  refine (bind_of_ok hrec).trans ?_
  rw [if_neg (by omega), if_neg (not_not_intro hrper)]
  dsimp only
  rw [linkWindow, tableExchange, hprobe]
  rfl

end Fill

/-! ### Growth while a period holds -/

/-- A count upwards of `warmup` keys, and then a body of six equal keys and another one over
and over. -/
def layered (warmup i : Nat) : Nat :=
  if i < warmup then i + 2 else if (i - warmup) % 7 = 6 then 1 else 0

section Layered
variable {warmup : Nat}

theorem layered_lt (hwar : warmup ≤ 2 ^ 32) (i : Nat) : layered warmup i < 2 ^ 64 := by
  unfold layered
  split
  · omega
  · split <;> decide

theorem opKey_layered (hwar : warmup ≤ 2 ^ 32) :
    opKey (opsFor (layered warmup)) = layered warmup := by
  funext i
  exact opKey_opsFor (layered_lt hwar i)

theorem layered_body (warmup j : Nat) : layered warmup (warmup + j) = layered 0 j := by
  unfold layered
  rw [if_neg (by omega), Nat.add_sub_cancel_left]
  rfl

theorem print_layered (warmup j : Nat) :
    print (layered warmup) (warmup + j) = print (layered 0) j := by
  refine print_congr fun i _ => ?_
  rw [add_assoc, layered_body]

theorem layered_link {lo a b link : Nat} (h : Link (print (layered warmup)) lo (warmup + b) link)
    (hlo : lo ≤ warmup) (hab : a < b) (hsame : print (layered 0) a = print (layered 0) b)
    (hnew : ∀ t, t < b → a < t → print (layered 0) t ≠ print (layered 0) b) :
    link = warmup + a + 1 := by
  refine h.eq_succ (by omega) (by omega) ?_ fun t hlt hlt' => ?_
  · rw [print_layered, print_layered, hsame]
  · have ht : t = warmup + (t - warmup) := by omega
    rw [ht, print_layered, print_layered]
    exact hnew (t - warmup) (by omega) (by omega)

theorem layered_noSquare {s : Nat} (hs : s ≤ warmup + 13) : NoSquare (layered warmup) s := by
  intro p hp htwice
  have hK : detectorK = 5 := rfl
  by_cases hwarm : s - 2 * p < warmup
  · -- the first key of the first copy is a key of the warmup, and there is no other like it
    refine ⟨0, by omega, ?_⟩
    unfold layered
    rw [if_pos (by omega)]
    split
    · omega
    · split <;> omega
  · -- both copies lie in the body
    have hshort : ∀ p, p < 7 → 5 ≤ p → ∀ j, j < 4 → j + 2 * p ≤ 13 → ∃ i, i < p ∧
        layered 0 (j + i) ≠ layered 0 (j + p + i) := by decide
    obtain ⟨i, hi, hne⟩ := hshort p (by omega) (by omega) (s - 2 * p - warmup) (by omega) (by omega)
    refine ⟨i, hi, ?_⟩
    rw [show s - 2 * p + i = warmup + (s - 2 * p - warmup + i) by omega,
      show s - p + i = warmup + (s - 2 * p - warmup + p + i) by omega, layered_body, layered_body]
    exact hne

variable {d : IterationDetector}

/-- The window at the start of the body repeats, and the third one does not: the best phase of
the body is the third. -/
theorem layered_bestPhase (h : d.Windowed (layered warmup) 0 (warmup + 15)) :
    d.bestPhase 7 (warmup + 7) = .ok (2, 1) := by
  have hlink := fun b hb => h.links (warmup + b) zero_le (show _ < warmup + 15 by omega)
  have hsec := layered_link (a := 1) (hlink 7 (by omega)) zero_le (by decide)
    (by decide +kernel) (by decide +kernel)
  have hfir := layered_link (a := 0) (hlink 1 (by omega)) zero_le (by decide)
    (by decide +kernel) (by decide +kernel)
  have hcopy := layered_link (a := 7) (hlink 8 (by omega)) zero_le (by decide)
    (by decide +kernel) (by decide +kernel)
  have hthird := layered_link (a := 2) (hlink 9 (by omega)) zero_le (by decide)
    (by decide +kernel) (by decide +kernel)
  have hzero : d.bestPhaseStep 7 (warmup + 7) (0, u64Max) 0 = .ok (0, 2) := by
    refine (bestPhaseStep_count 0 2 hsec (by omega) ?_).trans rfl
    rw [countCopies, if_pos (by omega), Nat.add_sub_cancel, countCopies, if_neg (by omega)]
  have hone : d.bestPhaseStep 7 (warmup + 7) (0, 2) 1 = .ok (0, 2) :=
    bestPhaseStep_skip hcopy (by omega)
  have htwo : d.bestPhaseStep 7 (warmup + 7) (0, 2) 2 = .ok (2, 1) := by
    refine (bestPhaseStep_count 2 1 hthird (by omega) ?_).trans rfl
    rw [countCopies, if_neg (by omega)]
  -- no window has fewer copies than one
  have hrest : ∀ phase, phase < 7 → d.bestPhaseStep 7 (warmup + 7) (2, 1) phase = .ok (2, 1) := by
    intro phase hphase
    obtain ⟨best, hstep, rfl | ⟨-, hlt, hle⟩⟩ := bestPhaseStep_total h (2, 1)
      (show warmup + 7 + phase < warmup + 15 by omega) (show 0 + 7 ≤ warmup + 7 by omega)
    · exact hstep
    · exact absurd hlt hle.not_gt
  show [0, 1, 2, 3, 4, 5, 6].foldlM (d.bestPhaseStep 7 (warmup + 7)) (0, u64Max) = .ok (2, 1)
  rw [foldlM_cons_ok hzero, foldlM_cons_ok hone, foldlM_cons_ok htwo,
    foldlM_cons_ok (hrest 3 (by decide)), foldlM_cons_ok (hrest 4 (by decide)),
    foldlM_cons_ok (hrest 5 (by decide)), foldlM_cons_ok (hrest 6 (by decide))]
  rfl

/-- The search tests the window six ops back, which ends no square, and then finds the body. -/
theorem layered_search (h : d.Holding (layered warmup) (warmup + 15)) (hperi : d.period = 0)
    (hpos : d.pos = warmup + 19) (hbase : d.base = 0) (href : d.refutedCount = 0) {link : Nat}
    (hlink : Link (print (layered warmup)) 0 (warmup + 14) link) :
    ∃ bodySum, d.searchLoop (warmup + 14) maxCandidates link = some (7, bodySum) := by
  have hwin := h.windows hperi
  rw [hbase] at hwin
  obtain rfl := layered_link (a := 8) hlink zero_le (by decide) (by decide +kernel)
    (by decide +kernel)
  have hnext := layered_link (a := 7) (hwin.links (warmup + 8) zero_le (by omega))
    zero_le (by decide) (by decide +kernel) (by decide +kernel)
  have hsix : d.isSquare (warmup + 14) 6 = false := by
    by_contra hsquare
    have hkeys := h.square (i := 4) (by omega) (by omega) (Bool.not_eq_false _ ▸ hsquare)
      (show 4 < 6 by decide)
    rw [show warmup + 14 - 2 * 6 + 4 = warmup + 6 by omega,
      show warmup + 14 - 6 + 4 = warmup + 12 by omega, layered_body, layered_body] at hkeys
    exact absurd hkeys (by decide)
  have hsev : d.isSquare (warmup + 14) 7 = true := by
    refine h.isSquare_of (by omega) (by omega) (by decide) fun i hi => ?_
    rw [show warmup + 14 - 2 * 7 + i = warmup + i by omega,
      show warmup + 14 - 7 + i = warmup + (7 + i) by omega, layered_body, layered_body]
    have hper : ∀ i, i < 7 → layered 0 i = layered 0 (7 + i) := by decide
    exact hper i hi
  have hK : detectorK = 5 := rfl
  refine ⟨d.windowSum (warmup + 14 - 7) (warmup + 14), ?_⟩
  show d.searchLoop (warmup + 14) (254 + 1 + 1) (warmup + 8 + 1) = _
  rw [searchLoop_next (by omega) (by omega) (by omega)
    (by rwa [show warmup + 14 - (warmup + 8 + 1 - 1) = 6 by omega]), Nat.add_sub_cancel, hnext]
  rw [searchLoop_found (by omega) (by omega) (by omega) (by omega)
    (by rwa [show warmup + 14 - (warmup + 7 + 1 - 1) = 7 by omega]) href,
    show warmup + 14 - (warmup + 7 + 1 - 1) = 7 by omega]
  rfl

/-- **A body with a later phase is accepted** as the ring fills up. -/
theorem layered_accepts (hwar : warmup ≤ 2 ^ 18)
    (h : d.Searching (layered warmup) (warmup + 18)) (hbase : d.base = 0)
    (hhis : d.historyMask + 1 = warmup + 19) (htab : d.historyMask ≤ d.tableMask) :
    ∃ d', d.check (opsFor (layered warmup) (warmup + 18)).1
        (opsFor (layered warmup) (warmup + 18)).2 = .ok (d', false) ∧
      d'.Live (layered warmup) ∧ d'.period = 7 ∧ d'.pos = warmup + 19 ∧
      d'.nextBoundary = warmup + 16 ∧ d'.base = 0 ∧ d'.historyMask = d.historyMask ∧
      d'.tableMask = d.tableMask ∧ d'.opsSinceBoundary = warmup + 19 := by
  have hK : detectorK = 5 := rfl
  have hu : u32Max = 2 ^ 32 - 1 := rfl
  have hpos := h.pos_eq
  have hkey : keyOf (opsFor (layered warmup) (warmup + 18)).1
      (opsFor (layered warmup) (warmup + 18)).2 = layered warmup d.pos := by
    rw [hpos]
    exact opKey_opsFor (layered_lt (by omega) _)
  obtain ⟨r, out, heq, hr, hchec, hlive⟩ :=
    check_spec h.live (h.live.unblocked fun _ => .inl htab) hkey (by rw [h.ops_eq]; omega)
  obtain ⟨hrper, hrpos, hrops, -, hrref⟩ := h.received hr
  have hrsig : r.signatureLen = min r.pos detectorK := hr.core.sig h.live.tracks
  obtain ⟨hrhis, hrtab, hrbase⟩ := hr.sizes.kept hbase (by omega) (by omega)
  -- what the search finds after the window is linked
  have hfound : ∀ {linked link}, Linked r linked (layered warmup) link →
      (∃ bodySum, linked.searchLoop (r.pos - detectorK) maxCandidates link = some (7, bodySum)) ∧
      linked.bestPhase 7 (r.pos - detectorK - 7) = .ok (2, 1) := by
    intro linked link hlin
    obtain ⟨hlper, hlpos, -, -, hlref⟩ := hlin.same
    rw [hrper] at hlper
    rw [hrpos] at hlpos
    have hlbase : linked.base = 0 := hlin.base_eq.trans hrbase
    have hhol := hlin.holding
    have hlink := hlin.link
    rw [hlpos] at hhol
    rw [hrbase, hrpos] at hlink
    have hwin := hhol.windows hlper
    rw [hlbase] at hwin
    rw [hrpos]
    exact ⟨layered_search hhol hlper hlpos hlbase (hlref.trans hrref) hlink, layered_bestPhase hwin⟩
  rw [heq]
  cases hchec with
  | idle hidle =>
    omega
  | holds hne => exact absurd hrper hne
  | breaks hne => exact absurd hrper hne
  | misses hzero hlin hloop =>
    obtain ⟨⟨bodySum, hsome⟩, -⟩ := hfound hlin
    rw [hloop] at hsome
    cases hsome
  | @accepts linked link length bodySum phase count hzero hlin hloop hmin hmax hroom hsquare
      hbest =>
    obtain ⟨⟨bodySum', hsome⟩, hphase⟩ := hfound hlin
    cases hloop.symm.trans hsome
    cases hbest.symm.trans hphase
    refine ⟨_, rfl, hlive _ _ rfl, rfl, ?_, ?_, hlin.base_eq.trans hrbase,
      hlin.history_eq.trans hrhis, hlin.table_eq.trans hrtab, ?_⟩
    · exact hlin.same.2.1.trans hrpos
    · show r.pos - detectorK + 2 = warmup + 16
      omega
    · exact hlin.same.2.2.1.trans hrops

theorem layered_grows (hlive : d.Live (layered warmup)) (hwar : warmup ≤ 2 ^ 18)
    (hper : d.period = 7) (hpos : d.pos = warmup + 19) (hnext : d.nextBoundary = warmup + 16)
    (hbase : d.base = 0) (hhis : d.historyMask + 1 = warmup + 19)
    (hlar : d.historyMask + 1 < historyMaxCapacity)
    (hops : d.opsSinceBoundary = warmup + 19) :
    ∃ d', d.check (opsFor (layered warmup) (warmup + 19)).1
        (opsFor (layered warmup) (warmup + 19)).2 = .ok (d', false) ∧
      d'.Live (layered warmup) ∧ d'.historyMask + 1 = (d.historyMask + 1) * 2 ∧
      d'.tableMask = d.tableMask := by
  have hK : detectorK = 5 := rfl
  have hu : u32Max = 2 ^ 32 - 1 := rfl
  have hne : d.period ≠ 0 := by omega
  have hkey : keyOf (opsFor (layered warmup) (warmup + 19)).1
      (opsFor (layered warmup) (warmup + 19)).2 = layered warmup d.pos := by
    rw [hpos]
    exact opKey_opsFor (layered_lt (by omega) _)
  obtain ⟨r, out, heq, hr, hchec, hnexL⟩ :=
    check_spec hlive (hlive.unblocked fun hzero => absurd hzero hne) hkey (by omega)
  have hrpos : r.pos = d.pos + 1 := hr.core.pos_eq
  have hrper : r.period = d.period := hr.core.period_eq
  have hrnext : r.nextBoundary = d.nextBoundary := hr.core.next_eq
  rw [heq]
  cases hchec with
  | idle hidle =>
    refine ⟨r, rfl, hnexL r _ rfl, ?_⟩
    cases hr.sizes with
    | fits _ hfits => omega
    | drops _ hfull => omega
    | grows _ hgrown _ _ hheld =>
      rw [if_neg (by omega)] at hgrown
      exact ⟨hgrown, hheld hne⟩
  | holds _ hdue => omega
  | breaks _ hdue => omega
  | misses hzero => omega
  | accepts hzero => omega

theorem reset_idle {key : Nat → Nat} (h : d.Live key) :
    ∃ d', d.reset = .ok d' ∧ d'.Idle ∧ d'.historyMask = d.historyMask ∧
      d'.tableMask = d.tableMask := by
  obtain ⟨d', hres, -, hhis, htab, hbase, hframe⟩ := reset_spec h key
  refine ⟨d', hres, ⟨fun key' => ?_, hbase⟩, hhis, htab⟩
  obtain ⟨e, he, hlive, -⟩ := reset_spec h key'
  cases hres.symm.trans he
  exact ⟨hlive, (congrArg IterationDetector.period hframe :),
    (congrArg IterationDetector.pos hframe :),
    (congrArg IterationDetector.opsSinceBoundary hframe :),
    (congrArg IterationDetector.boundariesDetected hframe :),
    (congrArg IterationDetector.refutedCount hframe :)⟩

/-- **An episode doubles the ring and keeps the table.** -/
theorem grow_episode (h : d.Idle) (hsmall : 32 ≤ d.historyMask + 1)
    (hlar : d.historyMask + 1 ≤ 2 ^ 18) (htab : d.historyMask ≤ d.tableMask) :
    ∃ calls d', d.runCalls calls = .ok d' ∧ d'.Idle ∧
      d'.historyMask + 1 = (d.historyMask + 1) * 2 ∧ d'.tableMask = d.tableMask := by
  obtain ⟨warmup, hwar⟩ : ∃ warmup, d.historyMask + 1 = warmup + 19 :=
    ⟨d.historyMask + 1 - 19, by omega⟩
  have hmax : historyMaxCapacity = 2 ^ 19 := rfl
  have hu : u32Max = 2 ^ 32 - 1 := rfl
  have hK : detectorK = 5 := rfl
  have hkeys := @opKey_layered warmup (by omega)
  obtain ⟨mid, hrun, hmid, hhis, htab', hbase⟩ :=
    @Idle.quiet_run d (opsFor (layered warmup)) h (warmup + 18) (by omega) (by omega) (by omega)
      (.inl htab) (by
        rw [hkeys]
        exact fun s hs => layered_noSquare (by omega))
  rw [hkeys] at hmid
  obtain ⟨accepted, hacc, hlive, hper, hpos, hnext, hbase', hhis', htab'', hops⟩ :=
    layered_accepts (by omega) hmid hbase (by omega) (by omega)
  obtain ⟨grown, hgrow, hgrowL, hgrowH, hgrowT⟩ :=
    layered_grows hlive (by omega) hper hpos hnext hbase' (by omega) (by omega) hops
  obtain ⟨d', hres, hidle, hd'history, hd'table⟩ := reset_idle hgrowL
  refine ⟨feed (opsFor (layered warmup)) (warmup + 20) ++ [.reset], d', ?_, hidle, ?_, ?_⟩
  · refine foldlM_append_ok (runCalls_feed_succ (runCalls_feed_succ hrun hacc) hgrow) ?_
    exact (foldlM_cons_ok hres).trans rfl
  · rw [hd'history, hgrowH, hhis', hhis]
  · rw [hd'table, hgrowT, htab'', htab']

end Layered

/-- **Two episodes and a stream of new keys make a search that never ends.** -/
theorem search_never_ends : ∃ calls, runCalls {} calls = .error .endless := by
  have hK : detectorK = 5 := rfl
  have hmin : historyMinCapacity = 2 ^ 12 := rfl
  -- the first op builds a ring of 4096 slots and a table of 8192
  have hstart : ({} : IterationDetector).Searching (opKey (opsFor id)) 0 :=
    ⟨start_live _, rfl, rfl, rfl, rfl, rfl⟩
  obtain ⟨first, hcheck, hfirst, hsizes⟩ := hstart.step
    (hstart.live.unblocked fun _ => .inl le_rfl) (by decide) (fun h => absurd h (by decide))
  obtain ⟨hhistory, htable⟩ : first.historyMask + 1 = 4096 ∧ first.tableMask + 1 = 8192 := by
    cases hsizes with
    | fits hmask => exact absurd rfl hmask
    | drops _ hlarge => exact absurd hlarge (by decide)
    | grows _ hhistory _ hsearch _ =>
      have hsize := hsearch rfl
      rw [if_pos rfl] at hhistory
      omega
  obtain ⟨zero, hreset, hzero, hzhistory, hztable⟩ := reset_idle hfirst.live
  obtain ⟨calls₁, one, hrun₁, hone, h1history, h1table⟩ :=
    grow_episode hzero (by omega) (by omega) (by omega)
  obtain ⟨calls₂, two, hrun₂, htwo, h2history, h2table⟩ :=
    grow_episode hone (by omega) (by omega) (by omega)
  -- a count upwards fills the table
  have hfill := @fill_endless two (opsFor id) htwo (by omega) fun s t hst ht heq => by
    have hcount : ∀ i, i < two.tableMask + 2 + detectorK → opKey (opsFor id) i = i + 0 := by
      intro i hi
      rw [@opKey_opsFor id i (show i < 2 ^ 64 by omega)]
      rfl
    exact ne_of_lt hst (print_count (n := two.tableMask + 2) (by omega) hcount (by omega)
      (by omega) heq)
  refine ⟨[.check (opsFor id 0).1 (opsFor id 0).2, .reset] ++ calls₁ ++ calls₂ ++
    feed (opsFor id) (two.tableMask + 1 + detectorK), ?_⟩
  have hhead : runCalls {} [.check (opsFor id 0).1 (opsFor id 0).2, .reset] = .ok zero := by
    rw [runCalls, foldlM_cons_ok (call_check hcheck)]
    exact (foldlM_cons_ok hreset).trans rfl
  rw [runCalls, List.foldlM_append]
  exact (bind_of_ok (foldlM_append_ok (foldlM_append_ok hhead hrun₁) hrun₂)).trans hfill

end IterationDetector
end Crucible
