import Crucible.DetectorStreams

/-! # The load of the window table

The table is built with two slots for each slot of the ring.  A ring that grows while a
period holds breaks that ratio, and a restart empties the table and keeps its size.  Two
restarts after such growth leave a table that is smaller than the history, and a search that
fills it never ends.  When every restart finds a table of the right size, every call ends.
-/
namespace Crucible
namespace IterationDetector
open OpenAddressing

/-- The table has two slots for each slot of the ring, or was never built. -/
def TableFits (d : IterationDetector) : Prop :=
  d.tableMask = 0 ∨ d.tableMask + 1 = (d.historyMask + 1) * 2

def load (d : IterationDetector) : Nat := (occupied slotKey (d.tableMask + 1) d.table).card

def RestartsFit (d : IterationDetector) : DetectorCall → Prop
  | .check _ _ => True
  | .reset => d.TableFits
  | .restartAfterDivergence => d.TableFits

instance (d : IterationDetector) : ∀ c, Decidable (d.RestartsFit c)
  | .check _ _ => isTrue trivial
  | .reset => inferInstanceAs (Decidable (_ ∨ _))
  | .restartAfterDivergence => inferInstanceAs (Decidable (_ ∨ _))

section Fits
variable {d d' r : IterationDetector} {key key' : Nat → Nat}

theorem Live.tableRoom (h : d.Live key) (hfits : d.period = 0 → d.TableFits) : d.TableRoom := by
  intro hper
  refine .inl ?_
  rcases hfits hper with hzero | hsize
  · rw [(h.fresh hzero).1]
    exact zero_le
  · omega

theorem RoomSizes.fits_of (h : RoomSizes d r) (hper : d.period = 0) (hfits : d.TableFits) :
    r.TableFits := by
  unfold TableFits at hfits ⊢
  cases h with
  | fits _ _ _ hhis htab => rwa [hhis, htab]
  | drops _ _ hhis htab => rwa [hhis, htab]
  | grows _ _ _ hsear _ => exact .inr (hsear hper)

theorem Live.load_le (h : d.Live key) (hper : d.period = 0) (hfits : d.TableFits) :
    2 * d.load ≤ d.tableMask + 1 ∧ d.HasRoom := by
  have hind := (h.holding.windows hper).indexed
  have hcard : d.load ≤ d.pos + 1 - detectorK - d.base := hind.card_le
  have hslots : d.pos - (d.base - 1) ≤ d.historyMask + 1 := h.tracks.ring.room
  have hK : detectorK = 5 := rfl
  have hbound : 2 * (d.pos + 1 - detectorK - d.base) ≤ d.tableMask + 1 := by
    rcases hfits with hzero | hsize
    · have hpos : d.pos = 0 := h.tracks.ring.empty (h.fresh hzero).1
      omega
    · omega
  exact ⟨by omega, hind.hasRoom (by omega)⟩

theorem check_of_call_error {schemaHash shapeHash : Nat} {e : Fault}
    (h : d.call (.check schemaHash shapeHash) = .error e) :
    d.check schemaHash shapeHash = .error e := by
  rw [call] at h
  cases hcheck : d.check schemaHash shapeHash with
  | ok out =>
    rw [hcheck] at h
    cases h
  | error e' =>
    rw [hcheck] at h
    exact congrArg _ (Except.error.inj h)

/-- What a run of calls keeps. -/
def Fitting (d : IterationDetector) : Prop :=
  (∃ key, d.Live key) ∧ (d.period = 0 → d.TableFits)

theorem check_fitting (h : d.Fitting) (schemaHash shapeHash : Nat) :
    d.check schemaHash shapeHash ≠ .error .endless ∧
      ∀ d' b, d.check schemaHash shapeHash = .ok (d', b) → d'.Fitting := by
  obtain ⟨hlive, hfits⟩ := h
  -- the stream goes on with the key of this op
  obtain ⟨stream, hlive, hkey⟩ := live_next hlive schemaHash shapeHash
  by_cases hops : d.opsSinceBoundary = u32Max
  · have hfault : d.check schemaHash shapeHash = .error .contract := by
      rw [check, receive, bump32, if_pos hops]
      rfl
    rw [hfault]
    exact ⟨by rintro ⟨⟩, by rintro _ _ ⟨⟩⟩
  obtain ⟨r, out, heq, hr, hchec, hnext⟩ :=
    check_spec hlive (hlive.unblocked (hlive.tableRoom hfits)) hkey hops
  have hper : r.period = d.period := hr.core.period_eq
  have hfit : r.period = 0 → r.TableFits := fun hzero =>
    hr.sizes.fits_of (hper ▸ hzero) (hfits (hper ▸ hzero))
  rw [heq]
  -- what is left to show is that a search that goes on has its table
  suffices hout : out ≠ .error .endless ∧
      ∀ d' b, out = .ok (d', b) → d'.period = 0 → d'.TableFits from
    ⟨hout.1, fun d' b hok => ⟨⟨stream, hnext d' b hok⟩, hout.2 d' b hok⟩⟩
  cases hchec with
  | idle hidle =>
    refine ⟨by simp, ?_⟩
    rintro d' b ⟨⟩
    exact hfit
  | holds hne =>
    split
    · exact ⟨by simp, by simp⟩
    · refine ⟨by simp, ?_⟩
      rintro d' b ⟨⟩ hzero
      exact absurd hzero hne
  | breaks hne hdue hbad hbrok =>
    refine ⟨by simp, ?_⟩
    rintro d' b ⟨⟩ -
    exact .inr (by rw [hbrok.table_eq, hbrok.history_eq])
  | misses hzero hlin hloop =>
    refine ⟨by simp, ?_⟩
    rintro d' b ⟨⟩ -
    have hrfit := hfit hzero
    unfold TableFits at hrfit ⊢
    rwa [hlin.history_eq, hlin.table_eq]
  | @accepts linked link length bodySum phase count hzero hlin hloop hmin =>
    have hne : length ≠ 0 := Nat.ne_of_gt (lt_of_lt_of_le (by decide) hmin)
    split
    · split
      · exact ⟨by simp, by simp⟩
      · refine ⟨by simp, ?_⟩
        rintro d' b ⟨⟩ hzero
        exact absurd hzero hne
    · refine ⟨by simp, ?_⟩
      rintro d' b ⟨⟩ hzero
      exact absurd hzero hne

theorem restart_fitting (h : d.Fitting) (hfits : d.TableFits) {out : Except Fault IterationDetector}
    (hout : ∀ key, d.Live key → ∃ d', out = .ok d' ∧ d'.Live key ∧ d'.historyMask = d.historyMask ∧
      d'.tableMask = d.tableMask) : out ≠ .error .endless ∧ ∀ d', out = .ok d' → d'.Fitting := by
  obtain ⟨⟨key, hlive⟩, -⟩ := h
  obtain ⟨d', rfl, hlive', hhis, htab⟩ := hout key hlive
  refine ⟨nofun, fun e heq => ?_⟩
  cases heq
  refine ⟨⟨key, hlive'⟩, fun _ => ?_⟩
  unfold TableFits at hfits ⊢
  rwa [hhis, htab]

theorem call_fitting (h : d.Fitting) {c : DetectorCall} (hfits : d.RestartsFit c) :
    d.call c ≠ .error .endless ∧ ∀ d', d.call c = .ok d' → d'.Fitting := by
  cases c with
  | check schemaHash shapeHash =>
    obtain ⟨hends, hnext⟩ := check_fitting h schemaHash shapeHash
    refine ⟨fun heq => hends (check_of_call_error heq), fun d' heq => ?_⟩
    obtain ⟨⟨d'', b⟩, hcheck, rfl⟩ := map_ok heq
    exact hnext d'' b hcheck
  | reset =>
    refine restart_fitting h hfits fun key hlive => ?_
    obtain ⟨d', heq, hlive', hhis, htab, -⟩ := reset_spec hlive key
    exact ⟨d', heq, hlive', hhis, htab⟩
  | restartAfterDivergence =>
    exact restart_fitting h hfits fun key hlive => by
      obtain ⟨d', heq, hlive', hhis, htab, -⟩ := restartAfterDivergence_spec hlive key
      exact ⟨d', heq, hlive', hhis, htab⟩

/-- **Every call ends** in a run whose restarts all find a table with two slots for each slot
of the ring, and whenever the detector searches its table is at most half full. -/
theorem calls_end {calls : List DetectorCall} (hfits : AllSteps call RestartsFit {} calls) :
    runCalls {} calls ≠ .error .endless ∧ ∀ d, runCalls {} calls = .ok d → d.period = 0 →
      d.TableFits ∧ 2 * d.load ≤ d.tableMask + 1 ∧ d.HasRoom := by
  have hstart : ({} : IterationDetector).Fitting := ⟨⟨fun _ => 0, start_live _⟩, fun _ => .inl rfl⟩
  have hstep : ∀ (d : IterationDetector) c d', d.RestartsFit c → d.Fitting → d.call c = .ok d' →
      d'.Fitting := fun _ _ d' hcond h heq => (call_fitting h hcond).2 d' heq
  refine ⟨foldlM_ne_error Fitting hstart hstep ?_ hfits, fun d hrun hperiod => ?_⟩
  · exact fun d c hcond h => (call_fitting h hcond).1
  · obtain ⟨⟨key, hlive⟩, hfit⟩ := foldlM_allSteps Fitting hstart hstep hfits hrun
    exact ⟨hfit hperiod, hlive.load_le hperiod (hfit hperiod)⟩

theorem calls_end_reset :
    AllSteps call RestartsFit {} [.check 1 0, .check 2 0, .reset, .check 1 0] ∧
      runCalls {} [.check 1 0, .check 2 0, .reset, .check 1 0] ≠ .error .endless := by
  have hfits : AllSteps call RestartsFit {} [.check 1 0, .check 2 0, .reset, .check 1 0] := by
    decide +kernel
  exact ⟨hfits, (calls_end hfits).1⟩

end Fits

end IterationDetector
end Crucible
