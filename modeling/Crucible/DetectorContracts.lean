import Crucible.DetectorLoad

/-! # The contracts of a check

A check reads the ring at the indexes that `checkReads` lists, each with the detector that
holds the ring at that time.  All of them lie in the held stretch (`checkReads_held`),
with or without restarts, and the period that a search accepts is always in range.  The
counter `ops_since_boundary` is another matter: a stream without a boundary brings it to its
end.
-/
namespace Crucible
open List
namespace IterationDetector

/-! ### The indexes that a check reads -/

def Held (d : IterationDetector) (index : Nat) : Prop := d.heldFrom ≤ index ∧ index < d.pos

/-- The reads of `prefix_poly_before_` and `prefix_sum_before_`. -/
def prefixReads (index : Nat) : List Nat := if index = 0 then [] else [index - 1]

/-- The reads of a fingerprint of `length` keys, or of their sum. -/
def stretchReads (start length : Nat) : List Nat :=
  prefixReads (start + length) ++ prefixReads start

/-- The reads of `windows_equal_`, if it compares all keys. -/
def equalReads (left right length : Nat) : List Nat :=
  stretchReads left length ++ stretchReads right length ++
    (range length).flatMap fun offset => [left + offset, right + offset]

/-- The reads of `is_square_`. -/
def squareReads (start period : Nat) : List Nat :=
  equalReads (start - 2 * period) (start - period) period

section Reads
variable (d : IterationDetector)

/-- The reads of `rebuild_table_`. -/
def rebuildReads (endStart : Nat) : List Nat :=
  (range (endStart - d.base)).flatMap fun i => stretchReads (d.base + i) detectorK

/-- The reads of `forget_before_`. -/
def forgetReads (newBase : Nat) : List Nat :=
  if d.period = 0 then
    (range (newBase - d.base)).flatMap fun i =>
      if d.base + i + detectorK ≤ d.pos then stretchReads (d.base + i) detectorK else []
  else []

/-- The reads of `grow_history_`. -/
def growReads : List Nat :=
  (range (d.pos - d.heldFrom)).map (d.heldFrom + ·) ++
    if d.period = 0 then
      d.rebuildReads (if d.pos + 1 > detectorK then d.pos + 1 - detectorK else 0)
    else []

/-- The reads of `make_room_`. -/
def makeRoomReads : List Nat :=
  if d.historyMask = 0 then d.growReads
  else
    let capacity := d.historyMask + 1
    if d.pos + 1 - d.heldFrom ≤ capacity then []
    else if capacity < historyMaxCapacity then d.growReads
    else d.forgetReads (d.pos + 2 - capacity)

/-- The reads of `append_`. -/
def appendReads : List (IterationDetector × Nat) :=
  d.makeRoomReads.map (d, ·) ++
    match d.makeRoom with
    | .ok d => (prefixReads d.pos).map (d, ·)
    | .error _ => []

/-- The reads of the loop of `search_`. -/
def searchReads (start : Nat) : Nat → Nat → List Nat
  | 0, _ => []
  | tests + 1, link =>
    if link = 0 then []
    else
      let earlier := link - 1
      if earlier < d.base then []
      else
        let period := start - earlier
        if start - d.base < 2 * period then []
        else
          let tested :=
            if detectorK ≤ period then
              squareReads start period ++ stretchReads (start - period) period
            else []
          if detectorK ≤ period ∧ d.isSquare start period ∧
              !d.isRefuted (wrap32 period) (d.windowSum (start - period) start) then
            tested
          else
            tested ++ earlier :: searchReads start tests
              (d.earlierLinks (earlier &&& d.historyMask))

/-- The reads of the loop of `accept_` over the copies of a window. -/
def copyReads (length windowStart : Nat) : Nat → Nat → List Nat
  | 0, _ => []
  | n + 1, link =>
    if link ≠ 0 ∧ link - 1 + length > windowStart then
      (link - 1) :: copyReads length windowStart n (d.earlierLinks ((link - 1) &&& d.historyMask))
    else []

/-- The reads of `accept_`. -/
def acceptReads (start length : Nat) : List Nat :=
  (range length).flatMap fun phase =>
    let windowStart := start - length + phase
    let link := d.earlierLinks (windowStart &&& d.historyMask)
    windowStart ::
      if link ≠ 0 ∧ start - length ≤ link - 1 then []
      else d.copyReads length windowStart (length + 2) link

/-- The reads of `verify_boundary_`, if it makes both comparisons and breaks the period. -/
def verifyReads : List Nat :=
  squareReads d.nextBoundary d.period ++
    equalReads (d.nextBoundary - d.period) d.nextBoundary detectorK ++
    d.rebuildReads (d.pos + 1 - detectorK)

/-- The reads of a check after it has received its op. -/
def decideReads : List Nat :=
  if d.signatureLen < detectorK then []
  else if d.period ≠ 0 then
    if d.pos = d.nextBoundary + detectorK then d.verifyReads else []
  else
    let start := d.pos - detectorK
    stretchReads start detectorK ++
      match d.linkWindow start with
      | .error _ => []
      | .ok (d, earlierLink) =>
        d.searchReads start maxCandidates earlierLink ++
          match d.searchLoop start maxCandidates earlierLink with
          | some (length, _) => d.acceptReads start length
          | none => []

/-- The reads of `check`. -/
def checkReads (schemaHash shapeHash : Nat) : List (IterationDetector × Nat) :=
  match bump32 d.opsSinceBoundary with
  | .error _ => []
  | .ok opsSinceBoundary =>
    ({ d with opsSinceBoundary } : IterationDetector).appendReads ++
      match d.receive schemaHash shapeHash with
      | .error _ => []
      | .ok d => d.decideReads.map (d, ·)

end Reads

section HeldReads
variable {d r : IterationDetector} {key : Nat → Nat}

variable {index p length start : Nat}

theorem held_iff : d.Held index ↔ d.base - 1 ≤ index ∧ index < d.pos := by
  rw [Held, heldFrom_eq]

theorem forall_mem_if {α : Type} {c : Prop} [Decidable c] {xs : List α} {P : α → Prop}
    (h : c → ∀ x ∈ xs, P x) : ∀ x ∈ if c then xs else [], P x := by
  split
  case isTrue hc => exact h hc
  case isFalse => exact nofun

theorem prefixReads_held (hlo : d.base ≤ index) (hhi : index ≤ d.pos) :
    ∀ p ∈ prefixReads index, d.Held p := by
  unfold prefixReads
  split
  · exact nofun
  · rw [forall_mem_singleton, held_iff]
    omega

theorem stretchReads_held (hlo : d.base ≤ start) (hhi : start + length ≤ d.pos) :
    ∀ p ∈ stretchReads start length, d.Held p :=
  forall_mem_append.mpr ⟨prefixReads_held (by omega) hhi, prefixReads_held hlo (by omega)⟩

theorem equalReads_held {left right : Nat} (hleft : d.base ≤ left)
    (hrig : d.base ≤ right) (hleft' : left + length ≤ d.pos) (hrig' : right + length ≤ d.pos) :
    ∀ p ∈ equalReads left right length, d.Held p := by
  refine forall_mem_append.mpr ⟨forall_mem_append.mpr
    ⟨stretchReads_held hleft hleft', stretchReads_held hrig hrig'⟩, fun p hp => ?_⟩
  obtain ⟨offset, hoff, hp⟩ := mem_flatMap.mp hp
  have hoff := mem_range.mp hoff
  simp only [mem_cons, not_mem_nil, or_false] at hp
  rw [held_iff]
  omega

theorem squareReads_held {period : Nat} (hlo : d.base + 2 * period ≤ start)
    (hhi : start ≤ d.pos) : ∀ p ∈ squareReads start period, d.Held p :=
  equalReads_held (by omega) (by omega) (by omega) (by omega)

theorem rebuildReads_held {endStart : Nat} (hend : endStart ≤ d.pos + 1 - detectorK) :
    ∀ p ∈ d.rebuildReads endStart, d.Held p := by
  intro p hp
  obtain ⟨i, hi, hp⟩ := mem_flatMap.mp hp
  have hi := mem_range.mp hi
  exact stretchReads_held le_self_add (by omega) p hp

theorem growReads_held : ∀ p ∈ d.growReads, d.Held p := by
  refine forall_mem_append.mpr ⟨forall_mem_map.mpr fun i hi => ?_,
    forall_mem_if fun _ => rebuildReads_held (by split <;> omega)⟩
  have hi := mem_range.mp hi
  exact ⟨le_self_add, by omega⟩

theorem makeRoomReads_held : ∀ p ∈ d.makeRoomReads, d.Held p := by
  unfold makeRoomReads
  dsimp only
  split
  · exact growReads_held
  split
  · exact nofun
  split
  · exact growReads_held
  · refine forall_mem_if fun _ p hp => ?_
    obtain ⟨i, -, hp⟩ := mem_flatMap.mp hp
    exact forall_mem_if (fun _ => stretchReads_held le_self_add (by omega)) p hp

theorem appendReads_held (h : d.Live key) : ∀ x ∈ d.appendReads, x.1.Held x.2 := by
  refine forall_mem_append.mpr ⟨forall_mem_map.mpr makeRoomReads_held, ?_⟩
  split
  case h_1 mid hmid =>
    obtain ⟨made, heq, hmade⟩ := (makeRoom_cases h).resolve_left (by simp [hmid])
    cases hmid.symm.trans heq
    have hpos : mid.pos = d.pos := (congrArg IterationDetector.pos hmade.frame_eq :)
    have hbase : d.base ≤ d.pos := h.tracks.ring.base_le
    have hor : mid.base = d.base ∨ mid.base + historyMaxCapacity = d.pos + 2 :=
      hmade.room.base_or
    have hmax : historyMaxCapacity = 2 ^ 19 := rfl
    have hle : mid.base ≤ mid.pos := by omega
    exact forall_mem_map.mpr (prefixReads_held hle le_rfl)
  case h_2 => exact nofun

/-- The search stays in the history: a link that leads out of it ends the search before it
is followed. -/
theorem searchReads_held (h : d.Windowed key d.base (start + 1))
    (hend : start + detectorK ≤ d.pos) (tests link : Nat) (hlink : link ≤ start) :
    ∀ p ∈ d.searchReads start tests link, d.Held p := by
  induction tests generalizing link with
  | zero => exact nofun
  | succ tests ih =>
    unfold searchReads
    split
    · exact nofun
    dsimp only
    split
    · exact nofun
    split
    · exact nofun
    have htes : ∀ p ∈ (if detectorK ≤ start - (link - 1) then
        squareReads start (start - (link - 1)) ++
          stretchReads (start - (start - (link - 1))) (start - (link - 1)) else []), d.Held p :=
      forall_mem_if fun _ => forall_mem_append.mpr
        ⟨squareReads_held (by omega) (by omega), stretchReads_held (by omega) (by omega)⟩
    split
    · exact htes
    · have hback := (h.links _ (show d.base ≤ link - 1 by omega) (by omega)).le
      refine forall_mem_append.mpr ⟨htes, forall_mem_cons.mpr ⟨?_, ih _ (by omega)⟩⟩
      rw [held_iff]
      omega

theorem copyReads_held {windowStart stop : Nat} (h : d.Windowed key d.base stop)
    (hstop : windowStart < stop) (hpos : windowStart < d.pos)
    (hlo : d.base + length ≤ windowStart) (fuel link : Nat) (hlink : link ≤ windowStart) :
    ∀ p ∈ d.copyReads length windowStart fuel link, d.Held p := by
  induction fuel generalizing link with
  | zero => exact nofun
  | succ fuel ih =>
    refine forall_mem_if fun hmore => ?_
    have hback := (h.links _ (show d.base ≤ link - 1 by omega) (by omega)).le
    refine forall_mem_cons.mpr ⟨?_, ih _ (by omega)⟩
    rw [held_iff]
    omega

theorem acceptReads_held (h : d.Windowed key d.base (start + 1))
    (hend : start + detectorK ≤ d.pos) (hroom : d.base + 2 * length ≤ start) :
    ∀ p ∈ d.acceptReads start length, d.Held p := by
  intro p hp
  obtain ⟨phase, hphase, hp⟩ := mem_flatMap.mp hp
  have hphase := mem_range.mp hphase
  rcases mem_cons.mp hp with rfl | hp
  · rw [held_iff]
    omega
  · split at hp
    · cases hp
    · have hback := (h.links _ (show d.base ≤ start - length + phase by omega) (by omega)).le
      exact copyReads_held h (by omega) (by omega) (by omega) _ _ hback p hp

theorem verifyReads_held (hdue : r.pos = r.nextBoundary + detectorK)
    (hbod : r.base + 2 * r.period ≤ r.nextBoundary) :
    ∀ p ∈ r.verifyReads, r.Held p :=
  forall_mem_append.mpr ⟨forall_mem_append.mpr ⟨squareReads_held hbod (by omega),
    equalReads_held (by omega) (by omega) (by omega) (by omega)⟩, rebuildReads_held le_rfl⟩

theorem decideReads_held (h : d.Live key) (hr : Receives d r key) :
    ∀ p ∈ r.decideReads, r.Held p := by
  have hsig : r.signatureLen = min r.pos detectorK := hr.core.sig h.tracks
  have hor : r.base = 0 ∨ r.base + detectorK ≤ r.pos := hr.core.tracks h.tracks
  unfold decideReads
  split
  · exact nofun
  split
  case isTrue hper =>
    exact forall_mem_if fun hdue => verifyReads_held hdue (hr.core.bodies h.tracks hper)
  rename_i hshort hper
  have hper : r.period = 0 := Decidable.not_not.mp hper
  refine forall_mem_append.mpr ⟨stretchReads_held (by omega) (by omega), ?_⟩
  rcases hr.link_cases hper (by omega) with ⟨hend, -⟩ | ⟨linked, link, hlink, hlin⟩
  · rw [hend]
    exact nofun
  rw [hlink]
  obtain ⟨hzero, hpos, -⟩ := hlin.same
  have hzero : linked.period = 0 := hzero.trans hper
  have hbase := hlin.base_eq
  have hwin := hlin.holding.windows hzero
  rw [show linked.pos + 1 - detectorK = r.pos - detectorK + 1 by omega] at hwin
  have hback := hlin.link.le
  -- the history is the same before and after the window was linked
  have hheld : ∀ p, linked.Held p ↔ r.Held p := by
    intro p
    rw [held_iff, held_iff, hbase, hpos]
  simp only [← hheld]
  refine forall_mem_append.mpr ⟨searchReads_held hwin (by omega) _ _ hback, ?_⟩
  split
  case h_1 length bodySum hloop =>
    rw [← hpos] at hloop
    obtain ⟨-, -, hroom, -⟩ := search_spec hlin.holding hzero hloop
    exact acceptReads_held hwin (by omega) (by omega)
  case h_2 => exact nofun

/-- **Every index that a check reads is in the history.** -/
theorem checkReads_held (h : d.Live key) {schemaHash shapeHash : Nat}
    (hkey : keyOf schemaHash shapeHash = key d.pos) :
    ∀ x ∈ d.checkReads schemaHash shapeHash, x.1.Held x.2 := by
  unfold checkReads
  by_cases hops : d.opsSinceBoundary = u32Max
  · rw [bump32, if_pos hops]
    exact forall_mem_nil _
  rw [bump32, if_neg hops]
  refine forall_mem_append.mpr ⟨appendReads_held (h.counted _ _ _ _), ?_⟩
  rcases receive_cases h hkey hops with ⟨hend, -⟩ | ⟨r, hrec, hr⟩
  · rw [hend]
    exact forall_mem_nil _
  · rw [hrec]
    exact forall_mem_map.mpr (decideReads_held h hr)

end HeldReads

/-! ### The counters -/

/-- A check is called with both of its counters below their end. -/
def CountersBelow (d : IterationDetector) : DetectorCall → Prop
  | .check _ _ => d.opsSinceBoundary < u32Max ∧ d.boundariesDetected < u32Max
  | .reset => True
  | .restartAfterDivergence => True

instance (d : IterationDetector) : ∀ c, Decidable (d.CountersBelow c)
  | .check _ _ => inferInstanceAs (Decidable (_ ∧ _))
  | .reset => isTrue trivial
  | .restartAfterDivergence => isTrue trivial

section Counters
variable {d d' : IterationDetector}

theorem check_contracts (h : ∃ key, d.Live key) {schemaHash shapeHash : Nat}
    (hops : d.opsSinceBoundary < u32Max) (hbound : d.boundariesDetected < u32Max) :
    d.check schemaHash shapeHash ≠ .error .contract := by
  obtain ⟨key, hlive, hkey⟩ := live_next h schemaHash shapeHash
  rcases check_cases hlive hkey hops.ne with ⟨hend, -⟩ | ⟨r, hr, hchec⟩
  · rw [hend]
    exact nofun
  have hrbound : r.boundariesDetected = d.boundariesDetected :=
    (congrArg IterationDetector.boundariesDetected hr.frame_eq :)
  have hne : r.boundariesDetected ≠ u32Max := hrbound ▸ hbound.ne
  generalize d.check schemaHash shapeHash = out at hchec
  cases hchec with
  | idle => exact nofun
  | holds =>
    rw [if_neg hne]
    exact nofun
  | breaks => exact nofun
  | misses => exact nofun
  | accepts =>
    split <;> exact nofun

theorem call_live (h : ∃ key, d.Live key) {c : DetectorCall} (hcall : d.call c = .ok d') :
    ∃ key, d'.Live key := by
  cases c with
  | check schemaHash shapeHash =>
    obtain ⟨⟨d'', b⟩, hcheck, rfl⟩ := map_ok hcall
    obtain ⟨key, hlive, hkey⟩ := live_next h schemaHash shapeHash
    exact ⟨key, (check_ok hlive hkey hcheck).1⟩
  | reset =>
    obtain ⟨key, hlive⟩ := h
    obtain ⟨e, heq, hlive', -⟩ := reset_spec hlive key
    cases heq.symm.trans hcall
    exact ⟨key, hlive'⟩
  | restartAfterDivergence =>
    obtain ⟨key, hlive⟩ := h
    obtain ⟨e, heq, hlive', -⟩ := restartAfterDivergence_spec hlive key
    cases heq.symm.trans hcall
    exact ⟨key, hlive'⟩

theorem call_contracts (h : ∃ key, d.Live key) {c : DetectorCall} (hbel : d.CountersBelow c) :
    d.call c ≠ .error .contract := by
  cases c with
  | check schemaHash shapeHash =>
    exact fun heq => check_contracts h hbel.1 hbel.2 (check_of_call_error heq)
  | reset =>
    obtain ⟨key, hlive⟩ := h
    obtain ⟨e, heq, -⟩ := reset_spec hlive key
    rw [call, heq]
    rintro ⟨⟩
  | restartAfterDivergence =>
    obtain ⟨key, hlive⟩ := h
    obtain ⟨e, heq, -⟩ := restartAfterDivergence_spec hlive key
    rw [call, heq]
    rintro ⟨⟩

/-- **No check violates a contract** in a run whose checks all find the two counters below
their end, and each of them reads the history only where it is held. -/
theorem checks_keep_contracts {calls : List DetectorCall}
    (hbelow : AllSteps call CountersBelow {} calls) :
    runCalls {} calls ≠ .error .contract ∧ ∀ before schemaHash shapeHash after d,
        calls = before ++ .check schemaHash shapeHash :: after → runCalls {} before = .ok d →
        d.check schemaHash shapeHash ≠ .error .contract ∧
          ∀ x ∈ d.checkReads schemaHash shapeHash, x.1.Held x.2 := by
  have hstart : ∃ key, ({} : IterationDetector).Live key := ⟨fun _ => 0, start_live _⟩
  refine ⟨foldlM_ne_error (fun d : IterationDetector => ∃ key, d.Live key) hstart
    (fun _ _ _ _ h hcall => call_live h hcall) (fun _ _ hcond h => call_contracts h hcond)
    hbelow, ?_⟩
  intro before schemaHash shapeHash after d hcalls hrun
  rw [hcalls] at hbelow
  have hlive : ∃ key, d.Live key :=
    foldlM_inv (fun d : IterationDetector => ∃ key, d.Live key) hstart
      (fun _ _ _ _ h hcall => call_live h hcall) hrun
  obtain ⟨hops, hbound⟩ := hbelow.at_step hrun
  obtain ⟨key, hlive', hkey⟩ := live_next hlive schemaHash shapeHash
  exact ⟨check_contracts hlive hops hbound, checkReads_held hlive' hkey⟩

theorem checks_keep_contracts_restart :
    AllSteps call CountersBelow {} [.check 1 0, .check 2 0, .restartAfterDivergence, .check 1 0] ∧
      runCalls {} [.check 1 0, .check 2 0, .restartAfterDivergence, .check 1 0] ≠
        .error .contract := by
  have hbelow : AllSteps call CountersBelow {}
      [.check 1 0, .check 2 0, .restartAfterDivergence, .check 1 0] := by
    decide +kernel
  exact ⟨hbelow, (checks_keep_contracts hbelow).1⟩

/-- A count upwards has no boundary, and its op number `2^32` finds the counter of ops since
the last boundary at its end. -/
theorem count_stream_aborts : runCalls {} (feed (opsFor id) (u32Max + 1)) = .error .contract := by
  have hkeys : ∀ i, i < u32Max + detectorK → opKey (opsFor id) i = i + 0 := fun i hi =>
    opKey_opsFor (hi.trans (by decide))
  have hstart : ({} : IterationDetector).Searching (opKey (opsFor id)) 0 :=
    ⟨start_live _, rfl, rfl, rfl, rfl, rfl⟩
  obtain ⟨mid, hrun, hmid, -⟩ := quiet_run (fun e => e.TableFits) (Nat.le_refl u32Max) hstart
    (.inl rfl) (fun i e _ he hfits => he.live.unblocked (he.live.tableRoom fun _ => hfits))
    (fun i e e' _ he hfits hsizes => hsizes.fits_of he.period_eq hfits)
    (fun s hs => noSquare_of_print fun t t' hlt hlt' heq =>
      ne_of_lt hlt (print_count (n := u32Max) (by decide) hkeys (by omega) (by omega) heq))
  refine runCalls_feed_fault hrun ?_
  rw [check, receive, bump32, if_pos hmid.ops_eq]
  rfl

end Counters

end IterationDetector
end Crucible
