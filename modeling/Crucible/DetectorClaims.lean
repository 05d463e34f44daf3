import Crucible.DetectorHistory

/-! # What a later boundary can claim

A boundary reports the iteration that ends `detectorK` ops before the newest op.
`claimFloor` is a lower bound on the first op of every iteration that a later check
can report.  It never moves back, a report moves it to the end of the iteration it
reports, and `oldestClaimable` stays at or below it.  So reported iterations are
disjoint, and dropping ops below `oldestClaimable` loses none of them.
-/
namespace Crucible
namespace IterationDetector

/-- The least op that a later report can put in its iteration.  A square that a search
accepts later ends at a window start after the newest one. -/
def Core.claimFloor (c : Core) : Nat :=
  if c.period = 0 then (c.pos + 1 - detectorK + c.base + 1) / 2
  else min (c.nextBoundary - c.period) ((c.nextBoundary + 1 + c.base + 1) / 2)

/-- What a check leaves after it has received the last of `keys`. -/
structure Checked (c c' : Core) (keys : List Nat) (b : Bool) : Prop where
  tracks : c'.Tracks keys
  floor_le : c.claimFloor ≤ c'.claimFloor
  body : b = true → 0 < c'.lastCompletedLen ∧
    c.claimFloor + c'.lastCompletedLen + detectorK ≤ c'.pos
  bodies : b = true → 2 * c'.lastCompletedLen + detectorK ≤ c'.pos
  square : b = true → SquareAt keys (c'.pos - detectorK) c'.lastCompletedLen
  floor_eq : b = true → c'.claimFloor = c'.pos - detectorK

section
variable {c c' r : Core} {keys : List Nat} {key : Nat}

theorem Core.Ring.withPeriod (h : r.Ring keys) (period nextBoundary : Nat) :
    ({ r with period, nextBoundary } : Core).Ring keys :=
  ⟨h.pos_eq, h.base_le, h.empty, h.mask_pow, h.mask_le, h.room, h.holds⟩

theorem checked_fired (hring : r.Ring keys) (hsig : r.signatureLen = min r.pos detectorK)
    (hdue : r.pos = r.nextBoundary + detectorK) (hmin : detectorK ≤ r.period)
    (hmax : r.period ≤ maxPeriod) (hbod : r.base + 2 * r.period ≤ r.nextBoundary)
    (hfloor : c.claimFloor + r.period ≤ r.nextBoundary)
    (hsquare : SquareAt keys r.nextBoundary r.period) : Checked c r.fired keys true := by
  have hK : detectorK = 5 := rfl
  have hbase : max r.base (r.nextBoundary - r.period) = r.nextBoundary - r.period :=
    max_eq_right (by omega)
  have hroom := hring.room
  have hnew : r.fired.claimFloor = r.pos - detectorK := by
    have hper : r.period ≠ 0 := by omega
    simp only [Core.claimFloor, Core.fired, if_neg hper, hbase]
    omega
  refine ⟨⟨⟨hring.pos_eq, ?_, hring.empty, hring.mask_pow, hring.mask_le, ?_, ?_⟩, hsig, ?_,
    fun _ => hmin, fun _ => hmax, fun _ => ?_, fun _ => ?_⟩, ?_, fun _ => ⟨?_, ?_⟩, fun _ => ?_,
    fun _ => ?_, fun _ => hnew⟩
  all_goals try simp only [Core.fired, hbase]
  · omega
  · omega
  · exact hring.holds.mono (by omega) le_rfl
  · omega
  · omega
  · omega
  · rw [Core.fired, hbase] at hnew
    omega
  · omega
  · omega
  · omega
  · rwa [hdue]

theorem Received.floor_le (hr : Received c r keys key) : c.claimFloor ≤ r.claimFloor := by
  have hbase := hr.base_le
  have hpos := hr.pos_eq
  unfold Core.claimFloor
  rw [hr.period_eq, hr.next_eq]
  split <;> omega

theorem Received.search_floor (hr : Received c r keys key) (hsearch : r.period = 0)
    {period : Nat} (hroom : r.base + 2 * period ≤ r.pos - detectorK) :
    c.claimFloor + period ≤ r.pos - detectorK := by
  have hbase := hr.base_le
  have hpos := hr.pos_eq
  have hper : c.period = 0 := hr.period_eq ▸ hsearch
  unfold Core.claimFloor
  rw [if_pos hper]
  omega

variable (ht : c.Tracks keys) (hr : Received c r keys key)
include ht hr

theorem Received.quiet
    (hdue : r.period ≠ 0 → r.signatureLen < detectorK ∨ r.pos ≠ r.nextBoundary + detectorK) :
    Checked c r (keys ++ [key]) false := by
  have hsig := hr.sig ht
  have hpos := hr.pos_eq
  have hnext := hr.next_eq
  have hsame := hr.period_eq
  refine ⟨⟨hr.ring, hsig, hr.tracks ht, fun h => ?_, fun h => ?_, hr.bodies ht, fun h => ?_⟩,
    hr.floor_le, nofun, nofun, nofun, nofun⟩
  · rw [hsame] at h ⊢
    exact ht.min_le h
  · rw [hsame] at h ⊢
    exact ht.le_max h
  · -- the boundary was ahead before this op, and it is not due now
    have hahead := ht.ahead (hsame ▸ h)
    omega

theorem Received.broke (hdue : r.pos = r.nextBoundary + detectorK) :
    Checked c { r with period := 0 } (keys ++ [key]) false := by
  have hsig := hr.sig ht
  have hor := hr.tracks ht
  refine ⟨⟨hr.ring.withPeriod _ _, hsig, hor, nofun, nofun, nofun, nofun⟩, ?_, nofun, nofun, nofun,
    nofun⟩
  refine hr.floor_le.trans ?_
  simp only [Core.claimFloor, if_true]
  split <;> omega

theorem Received.held (hper : r.period ≠ 0) (hdue : r.pos = r.nextBoundary + detectorK)
    (hsquare : SquareAt (keys ++ [key]) r.nextBoundary r.period) :
    Checked c r.fired (keys ++ [key]) true := by
  have hsame := hr.period_eq
  have hper' : c.period ≠ 0 := hsame ▸ hper
  refine checked_fired hr.ring (hr.sig ht) hdue (hsame ▸ ht.min_le hper')
    (hsame ▸ ht.le_max hper') (hr.bodies ht hper) ?_ hsquare
  have hbod := ht.bodies hper'
  rw [hr.next_eq]
  unfold Core.claimFloor
  rw [if_neg hper']
  omega

variable {period : Nat} (hsearch : r.period = 0) (hmin : detectorK ≤ period)
  (hmax : period ≤ maxPeriod) (hroom : r.base + 2 * period ≤ r.pos - detectorK)
include hsearch hmin hmax hroom

theorem Received.accepted {phase : Nat} (hphase : phase ≠ 0) :
    Checked c { r with period, nextBoundary := r.pos - detectorK + phase } (keys ++ [key])
      false := by
  have hK : detectorK = 5 := rfl
  have hsig := hr.sig ht
  have hor := hr.tracks ht
  refine ⟨⟨hr.ring.withPeriod _ _, hsig, hor, fun _ => hmin, fun _ => hmax, fun _ => ?_,
    fun _ => ?_⟩, ?_, nofun, nofun, nofun, nofun⟩
  · change r.base + 2 * period ≤ r.pos - detectorK + phase
    omega
  · change r.pos < r.pos - detectorK + phase + detectorK
    omega
  · have hsec := hr.search_floor hsearch hroom
    have hbase := hr.base_le
    have hpos := hr.pos_eq
    have hsearch' : c.period = 0 := hr.period_eq ▸ hsearch
    have hper : period ≠ 0 := by omega
    simp only [Core.claimFloor, if_neg hper, if_pos hsearch'] at hsec ⊢
    omega

theorem Received.reported (hsquare : SquareAt (keys ++ [key]) (r.pos - detectorK) period) :
    Checked c ({ r with period, nextBoundary := r.pos - detectorK } : Core).fired (keys ++ [key])
      true := by
  have hsig := hr.sig ht
  refine checked_fired (r := { r with period, nextBoundary := r.pos - detectorK })
    (hr.ring.withPeriod _ _) hsig ?_ hmin hmax hroom (hr.search_floor hsearch hroom) hsquare
  change r.pos = r.pos - detectorK + detectorK
  omega

end

section Detector
variable {d d' : IterationDetector} {keys : List Nat}

theorem oldestClaimable_le (ht : d.core.Tracks keys) : d.oldestClaimable ≤ d.core.claimFloor := by
  have hor : d.base = 0 ∨ d.base + detectorK ≤ d.pos := ht.base_or
  have hahead : d.period ≠ 0 → d.pos < d.nextBoundary + detectorK := ht.ahead
  simp only [oldestClaimable, Core.claimFloor]
  change _ ≤ if d.period = 0 then (d.pos + 1 - detectorK + d.base + 1) / 2
    else min (d.nextBoundary - d.period) ((d.nextBoundary + 1 + d.base + 1) / 2)
  by_cases hper : d.period = 0
  · rw [if_pos hper]
    split <;> split at * <;> omega
  · rw [if_neg hper]
    split <;> split at * <;> split at * <;> omega

theorem tracks_empty (hpos : d.pos = 0) (hbase : d.base = 0) (hper : d.period = 0)
    (hsig : d.signatureLen = 0) (hpow : PowMask d.historyMask)
    (hle : d.historyMask + 1 ≤ historyMaxCapacity) : d.core.Tracks [] := by
  refine ⟨⟨hpos, ?_, fun _ => hpos, hpow, hle, ?_, fun p _ hp => ?_⟩, ?_, .inl hbase,
    fun h => absurd hper h, fun h => absurd hper h, fun h => absurd hper h,
    fun h => absurd hper h⟩
  · change d.base ≤ d.pos
    omega
  · change d.pos - (d.base - 1) ≤ d.historyMask + 1
    omega
  · change p < d.pos at hp
    omega
  · change d.signatureLen = min d.pos detectorK
    rw [hsig, hpos]
    rfl

theorem start_tracks : ({} : IterationDetector).core.Tracks [] :=
  tracks_empty rfl rfl rfl rfl ⟨0, rfl⟩ (by decide)

end Detector
end IterationDetector
end Crucible
