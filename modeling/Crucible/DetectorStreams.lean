import Crucible.DetectorCheck

/-! # Streams of calls on a detector

The calls on a detector, and runs of them.  A stretch of checks on a stream without a
square finds nothing (`quiet_run`), whatever the fingerprints collide with.  Every stream of
words is the stream of keys of some ops (`keyOf_schemaFor`), and the fingerprints of the
windows of a count upwards are pairwise different (`print_count`).
-/
namespace Crucible

inductive DetectorCall where
  | check (schemaHash shapeHash : Nat)
  | reset
  | restartAfterDivergence
deriving DecidableEq

namespace IterationDetector

def call (d : IterationDetector) : DetectorCall → Except Fault IterationDetector
  | .check schemaHash shapeHash => Prod.fst <$> d.check schemaHash shapeHash
  | .reset => d.reset
  | .restartAfterDivergence => d.restartAfterDivergence

def runCalls (d : IterationDetector) (calls : List DetectorCall) :
    Except Fault IterationDetector := calls.foldlM call d

def opKey (op : Nat → Nat × Nat) (i : Nat) : Nat := keyOf (op i).1 (op i).2

/-- The checks of the first `n` ops of a stream. -/
def feed (op : Nat → Nat × Nat) (n : Nat) : List DetectorCall :=
  (List.range n).map fun i => .check (op i).1 (op i).2

theorem feed_succ (op : Nat → Nat × Nat) (n : Nat) :
    feed op (n + 1) = feed op n ++ [.check (op n).1 (op n).2] := by
  rw [feed, List.range_succ, List.map_append]
  rfl

section Feed
variable {d mid d' : IterationDetector} {op : Nat → Nat × Nat} {n : Nat}

theorem call_check {schemaHash shapeHash : Nat} {b : Bool}
    (h : d.check schemaHash shapeHash = .ok (d', b)) :
    d.call (.check schemaHash shapeHash) = .ok d' := by
  rw [call, h]
  rfl

theorem runCalls_feed_succ {b : Bool} (hrun : d.runCalls (feed op n) = .ok mid)
    (hcheck : mid.check (op n).1 (op n).2 = .ok (d', b)) :
    d.runCalls (feed op (n + 1)) = .ok d' := by
  rw [feed_succ]
  exact foldlM_append_ok hrun ((foldlM_cons_ok (call_check hcheck)).trans rfl)

theorem runCalls_feed_fault {e : Fault} (hrun : d.runCalls (feed op n) = .ok mid)
    (hcheck : mid.check (op n).1 (op n).2 = .error e) :
    d.runCalls (feed op (n + 1)) = .error e := by
  rw [feed_succ, runCalls, List.foldlM_append]
  refine (bind_of_ok hrun).trans ?_
  rw [List.foldlM_cons, call, hcheck]
  rfl

end Feed

/-! ### Stretches without a square -/

/-- No square of a period that the search tries ends at `s`. -/
def NoSquare (key : Nat → Nat) (s : Nat) : Prop :=
  ∀ p, detectorK ≤ p → 2 * p ≤ s → ∃ i, i < p ∧ key (s - 2 * p + i) ≠ key (s - p + i)

/-- A detector that has searched `n` ops of a stream from its start and accepted nothing. -/
structure Searching (d : IterationDetector) (key : Nat → Nat) (n : Nat) : Prop where
  live : d.Live key
  period_eq : d.period = 0
  pos_eq : d.pos = n
  ops_eq : d.opsSinceBoundary = n
  boundaries_eq : d.boundariesDetected = 0
  refuted_eq : d.refutedCount = 0

section Quiet
variable {d r d' : IterationDetector} {key : Nat → Nat} {op : Nat → Nat × Nat}

theorem RoomSizes.congr (h : RoomSizes d r) (hbase : d'.base = r.base)
    (hhis : d'.historyMask = r.historyMask) (htab : d'.tableMask = r.tableMask) :
    RoomSizes d d' := by
  cases h with
  | fits hmask hfits hbase' hhis' htab' =>
    exact .fits hmask hfits (hbase.trans hbase') (hhis.trans hhis') (htab.trans htab')
  | drops hfull hlar hhis' htab' =>
    exact .drops hfull hlar (hhis.trans hhis') (htab.trans htab')
  | grows hfull hhis' hbase' hsear hheld =>
    refine .grows hfull ?_ (hbase.trans hbase') (fun hper => ?_)
      fun hper => htab.trans (hheld hper)
    · rw [hhis, hhis']
    · rw [htab, hhis, hsear hper]

theorem RoomSizes.kept (h : RoomSizes d r) (hbase : d.base = 0) (hmask : d.historyMask ≠ 0)
    (hroom : d.pos ≤ d.historyMask) :
    r.historyMask = d.historyMask ∧ r.tableMask = d.tableMask ∧ r.base = 0 := by
  cases h with
  | fits _ _ hbase' hhis htab => exact ⟨hhis, htab, hbase'.trans hbase⟩
  | drops hfull => omega
  | grows hfull => omega

theorem Searching.received {n : Nat} (h : d.Searching key n) (hr : Receives d r key) :
    r.period = 0 ∧ r.pos = n + 1 ∧ r.opsSinceBoundary = n + 1 ∧ r.boundariesDetected = 0 ∧
      r.refutedCount = 0 :=
  ⟨hr.core.period_eq.trans h.period_eq, hr.core.pos_eq.trans (congrArg (· + 1) h.pos_eq),
    (congrArg IterationDetector.opsSinceBoundary hr.frame_eq :).trans (congrArg (· + 1) h.ops_eq),
    (congrArg IterationDetector.boundariesDetected hr.frame_eq :).trans h.boundaries_eq,
    (congrArg IterationDetector.refutedCount hr.frame_eq :).trans h.refuted_eq⟩

theorem Holding.square {stop start period : Nat} (h : d.Holding key stop)
    (hstart : d.base + 2 * period ≤ start) (hend : start ≤ d.pos)
    (hsquare : d.isSquare start period = true) {i : Nat} (hi : i < period) :
    key (start - 2 * period + i) = key (start - period + i) := by
  have hkeys := isSquare_keys h.ring hstart hend hsquare i hi
  rwa [streamKeys_getD key (by omega), streamKeys_getD key (by omega)] at hkeys

theorem Holding.windowsEqual_of {stop left right length : Nat} (h : d.Holding key stop)
    (hleft : d.base ≤ left) (hrig : d.base ≤ right) (hleft' : left + length ≤ d.pos)
    (hrig' : right + length ≤ d.pos) (hlen : length < 2 ^ 64)
    (hkeys : ∀ i, i < length → key (left + i) = key (right + i)) :
    d.windowsEqual left right length = true := by
  have hhol : Ring.Holds d.historyMask d.keys (fun p => (streamKeys key d.pos).getD p 0)
      (d.base - 1) d.pos := h.ring.holds
  refine decide_eq_true ⟨?_, fun i hi => ?_⟩
  · rw [h.prints.polyBetween hleft hleft' hlen, h.prints.polyBetween hrig hrig' hlen]
    exact prefixHash_congr hkeys
  · rw [hhol (left + i) (by omega) (by omega), hhol (right + i) (by omega) (by omega)]
    dsimp only
    rw [streamKeys_getD key (by omega), streamKeys_getD key (by omega)]
    exact hkeys i hi

theorem Holding.isSquare_of {stop start period : Nat} (h : d.Holding key stop)
    (hstart : d.base + 2 * period ≤ start) (hend : start ≤ d.pos) (hper : period < 2 ^ 64)
    (hkeys : ∀ i, i < period → key (start - 2 * period + i) = key (start - period + i)) :
    d.isSquare start period = true :=
  h.windowsEqual_of (by omega) (by omega) (by omega) (by omega) hper hkeys

theorem searchLoop_next {start tests link : Nat} (hlink : link ≠ 0) (hbase : d.base < link)
    (htwice : d.base + 2 * (start - (link - 1)) ≤ start)
    (hbad : d.isSquare start (start - (link - 1)) = false) :
    d.searchLoop start (tests + 1) link =
      d.searchLoop start tests (d.earlierLinks ((link - 1) &&& d.historyMask)) := by
  rw [searchLoop, if_neg hlink]
  rw [if_neg (by omega), if_neg (by omega), if_neg]
  rw [hbad]
  exact fun hgood => Bool.noConfusion hgood.2.1

theorem searchLoop_found {start tests link : Nat} (hlink : link ≠ 0) (hbase : d.base < link)
    (htwice : d.base + 2 * (start - (link - 1)) ≤ start)
    (hmin : detectorK ≤ start - (link - 1))
    (hsquare : d.isSquare start (start - (link - 1)) = true) (hnone : d.refutedCount = 0) :
    d.searchLoop start (tests + 1) link = some (wrap32 (start - (link - 1)),
        d.windowSum (start - (start - (link - 1))) start) := by
  rw [searchLoop, if_neg hlink]
  rw [if_neg (by omega), if_neg (by omega), if_pos]
  refine ⟨hmin, hsquare, ?_⟩
  rw [isRefuted, hnone]
  rfl

/-- **One check of a stretch without a square.** -/
theorem Searching.step {n : Nat} (h : d.Searching (opKey op) n) (hunb : d.Unblocked (opKey op))
    (hops : n < u32Max) (hnone : detectorK ≤ n + 1 → NoSquare (opKey op) (n + 1 - detectorK)) :
    ∃ d', d.check (op n).1 (op n).2 = .ok (d', false) ∧ d'.Searching (opKey op) (n + 1) ∧
      RoomSizes d d' := by
  have hpos := h.pos_eq
  have hkey : keyOf (op n).1 (op n).2 = opKey op d.pos := by
    rw [hpos]
    rfl
  have hopsne : d.opsSinceBoundary ≠ u32Max := by
    rw [h.ops_eq]
    exact hops.ne
  obtain ⟨r, out, heq, hr, hchec, hlive⟩ := check_spec h.live hunb hkey hopsne
  obtain ⟨hrper, hrpos, hrops, hrbound, hrref⟩ := h.received hr
  rw [heq]
  cases hchec with
  | idle hidle => exact ⟨r, rfl, ⟨hlive r _ rfl, hrper, hrpos, hrops, hrbound, hrref⟩, hr.sizes⟩
  | holds hper => exact absurd hrper hper
  | breaks hper => exact absurd hrper hper
  | @misses linked link hper hlin hloop =>
    obtain ⟨hper, hpos, hops, hbound, href⟩ := hlin.same
    exact ⟨linked, rfl, ⟨hlive linked _ rfl, hper.trans hrper, hpos.trans hrpos,
      hops.trans hrops, hbound.trans hrbound, href.trans hrref⟩,
      hr.sizes.congr hlin.base_eq hlin.history_eq hlin.table_eq⟩
  | @accepts linked link length bodySum phase count hper hlin hloop hmin hmax hlen hsquare hbest =>
    -- the accepted period would be a square of the keys
    have hlpos := hlin.same.2.1
    have hbase := hlin.base_eq
    rw [hrpos] at hsquare hlen
    obtain ⟨i, hi, hne⟩ := hnone (by omega) length hmin (by omega)
    exact absurd (hlin.holding.square (by omega) (by omega) hsquare hi) hne

/-- **A stretch without a square finds nothing.**  `Q` is what the run keeps of the sizes of
the ring and of the table; it has to let every probe end. -/
theorem quiet_run (Q : IterationDetector → Prop) {n : Nat} (hn : n ≤ u32Max)
    (hstart : d.Searching (opKey op) 0) (hQ : Q d)
    (hends : ∀ i e, i < n → e.Searching (opKey op) i → Q e → e.Unblocked (opKey op))
    (hstep : ∀ i e e', i < n → e.Searching (opKey op) i → Q e → RoomSizes e e' → Q e')
    (hnone : ∀ s, s + detectorK ≤ n → NoSquare (opKey op) s) :
    ∃ d', d.runCalls (feed op n) = .ok d' ∧ d'.Searching (opKey op) n ∧ Q d' := by
  rw [runCalls, feed, List.foldlM_map]
  refine foldlM_range_ok (fun i e => e.Searching (opKey op) i ∧ Q e) ⟨hstart, hQ⟩ ?_
  rintro i mid hi ⟨hmid, hQmid⟩
  obtain ⟨d', hcheck, hsear, hsiz⟩ := hmid.step (hends i mid hi hmid hQmid) (by omega)
    fun hK => hnone _ (by omega)
  exact ⟨d', call_check hcheck, hsear, hstep i mid d' hi hmid hQmid hsiz⟩

end Quiet

/-! ### Keys at will -/

def schemaFor (k : Nat) : Nat := unmix64 k ^^^ fmix64 polyBase

theorem keyOf_schemaFor {k : Nat} (h : k < 2 ^ 64) : keyOf (schemaFor k) 0 = k := by
  have hbase : wrap64 (0 + polyBase) = polyBase := by decide
  rw [keyOf, hbase, schemaFor, Nat.xor_assoc, Nat.xor_self, Nat.xor_zero, fmix64_unmix64 h]

def opsFor (key : Nat → Nat) (i : Nat) : Nat × Nat := (schemaFor (key i), 0)

theorem opKey_opsFor {key : Nat → Nat} {i : Nat} (h : key i < 2 ^ 64) :
    opKey (opsFor key) i = key i := keyOf_schemaFor h

/-! ### A count upwards -/

theorem print_count {key : Nat → Nat} {n c : Nat} (hn : n ≤ 2 ^ 64)
    (hcount : ∀ i, i < n + detectorK → key i = i + c) {s t : Nat} (hs : s < n) (ht : t < n)
    (heq : print key s = print key t) : s = t := by
  -- a fingerprint is a multiple of the start, up to a constant
  have hprint : ∀ u, u < n → print key u ≡
      u * geometric polyBase detectorK + prefixHash polyBase (2 ^ 64) (· + c) detectorK
        [MOD 2 ^ 64] := by
    intro u hu
    have hsame : print key u = prefixHash polyBase (2 ^ 64) (fun i => u + (i + c)) detectorK :=
      prefixHash_congr fun i hi => by
        rw [hcount (u + i) (by omega), add_assoc]
    rw [hsame]
    exact prefixHash_shift polyBase (2 ^ 64) (· + c) u detectorK
  have hsame := hprint s hs
  rw [heq] at hsame
  have hmul := Nat.ModEq.add_right_cancel' _ (hsame.symm.trans (hprint t ht))
  have hcop : Nat.gcd (2 ^ 64) (geometric polyBase detectorK) = 1 := by decide +kernel
  have hmod : s ≡ t [MOD 2 ^ 64] := Nat.ModEq.cancel_right_of_coprime hcop hmul
  exact hmod.eq_of_lt_of_lt (by omega) (by omega)

theorem noSquare_of_print {key : Nat → Nat} {s : Nat}
    (hinj : ∀ t t', t < t' → t' < s → print key t ≠ print key t') : NoSquare key s := by
  intro p hp htwice
  by_contra hall
  have hK : detectorK = 5 := rfl
  refine hinj (s - 2 * p) (s - p) (by omega) (by omega) (print_congr fun i hi => ?_)
  by_contra hne
  exact hall ⟨i, by omega, hne⟩

end IterationDetector
end Crucible
