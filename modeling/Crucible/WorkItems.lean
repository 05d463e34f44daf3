import Crucible.DetectorCheck
import Crucible.DetectStage

/-! # The work items of the detect stage

The pending ops are the end of the stream since the last reset, down to a first op at
or below the claim floor of the detector.  So a boundary always finds its whole
iteration pending, the work item is exactly that iteration, and no op is in two work
items.
-/
namespace Crucible
open List

/-! ### The pending ops as a list -/

namespace PendingOps

/-- The ring holds `ops`. -/
structure Pends (q : PendingOps) (ops : List RecordedOp) : Prop where
  count_eq : q.count = ops.length
  mask_pow : PowMask q.mask
  room : q.count ≤ q.mask + 1
  mask_le : q.mask + 1 ≤ historyMaxCapacity
  empty : q.mask = 0 → q.count = 0
  holds : Ring.Holds q.mask q.slots (fun p => ops.getD (p - q.head) default) q.head
    (q.head + q.count)

variable {q q' : PendingOps} {ops : List RecordedOp}

section
variable (h : q.Pends ops)
include h

theorem Pends.entry {index : Nat} (hind : index < ops.length) :
    q.entry index = ops.getD index default := by
  have hheld : q.entry index = ops.getD (q.head + index - q.head) default :=
    h.holds (q.head + index) le_self_add (by rw [h.count_eq]; omega)
  rwa [Nat.add_sub_cancel_left] at hheld

theorem Pends.map_entry {n : Nat} (hn : n ≤ ops.length) : (range n).map q.entry = ops.take n := by
  refine ext_getElem (by simp [hn]) fun i hi hi' => ?_
  have hlt : i < n := by simpa using hi
  rw [getElem_map, getElem_range, h.entry (by omega), getElem_take, getD_eq_getElem _ _ (by omega)]

theorem Pends.toList_eq : q.toList = ops := by
  rw [toList, h.count_eq, h.map_entry le_rfl, take_length]

theorem grow_pends (hgrow : q.grow = .ok q') :
    q'.Pends ops ∧ q'.mask ≠ 0 ∧ q'.count < q'.mask + 1 := by
  unfold grow at hgrow
  generalize hcap : (if q.mask = 0 then minCapacity else (q.mask + 1) * 2) = newCapacity at hgrow
  have hroom := h.room
  have hemp := h.empty
  have hpow : PowMask (newCapacity - 1) ∧ q.count < newCapacity ∧ 1 < newCapacity := by
    rw [← hcap]
    split
    · rename_i hzero
      have := hemp hzero
      exact ⟨⟨12, rfl⟩, by rw [this]; decide, by decide⟩
    · exact ⟨IterationDetector.powMask_double h.mask_pow, by omega, by omega⟩
  obtain ⟨hpow, hlt, hone⟩ := hpow
  dsimp only at hgrow
  split at hgrow
  · cases hgrow
  · cases hgrow
    refine ⟨⟨h.count_eq, hpow, ?_, ?_, ?_, ?_⟩, ?_, ?_⟩
    · change q.count ≤ newCapacity - 1 + 1
      omega
    · change newCapacity - 1 + 1 ≤ historyMaxCapacity
      omega
    · change newCapacity - 1 = 0 → q.count = 0
      omega
    · intro p _ hp
      change p < 0 + q.count at hp
      have hslot : p &&& (newCapacity - 1) = p := by
        rw [and_powMask hpow]
        exact Nat.mod_eq_of_lt (by omega)
      change (if p &&& (newCapacity - 1) < q.count then q.entry (p &&& (newCapacity - 1))
        else default) = ops.getD (p - 0) default
      rw [hslot, if_pos (by omega), h.entry (by rw [← h.count_eq]; omega), Nat.sub_zero]
    · change newCapacity - 1 ≠ 0
      omega
    · change q.count < newCapacity - 1 + 1
      omega

theorem push_pends {op : RecordedOp} (hpush : q.push op = .ok q') : q'.Pends (ops ++ [op]) := by
  obtain ⟨mid, hmid, hpush⟩ := bind_ok hpush
  have hroom : mid.Pends ops ∧ mid.mask ≠ 0 ∧ mid.count < mid.mask + 1 := by
    unfold growIfFull at hmid
    split at hmid
    · exact grow_pends h hmid
    · cases hmid
      have := h.room
      exact ⟨h, by omega, by omega⟩
  obtain ⟨hmid, hmask, hlt⟩ := hroom
  cases hpush
  have hold : Ring.Holds mid.mask mid.slots (fun p => (ops ++ [op]).getD (p - mid.head) default)
      mid.head (mid.head + mid.count) := by
    refine hmid.holds.congr fun p _ hp => ?_
    rw [getD_append _ _ _ _ (by rw [← hmid.count_eq]; omega)]
  have hstore := hold.store hmid.mask_pow (by omega)
  have hop : (ops ++ [op]).getD (mid.head + mid.count - mid.head) default = op := by
    rw [hmid.count_eq]
    simp
  rw [hop] at hstore
  refine ⟨?_, hmid.mask_pow, hlt, hmid.mask_le, fun hz => absurd hz hmask, hstore⟩
  rw [hmid.count_eq, length_append, length_singleton]

theorem dropOldest_pends (n : Nat) : (q.dropOldest n).Pends (ops.drop n) := by
  have hcount := h.count_eq
  have hroom := h.room
  have hemp := h.empty
  have hdrop : (if n < q.count then n else q.count) = min n q.count := by
    split <;> omega
  unfold dropOldest
  rw [hdrop]
  refine ⟨?_, h.mask_pow, ?_, h.mask_le, ?_, ?_⟩
  · change q.count - min n q.count = (ops.drop n).length
    rw [length_drop]
    omega
  · change q.count - min n q.count ≤ q.mask + 1
    omega
  · change q.mask = 0 → q.count - min n q.count = 0
    omega
  · intro p hlo hhi
    change q.head + min n q.count ≤ p at hlo
    change p < q.head + min n q.count + (q.count - min n q.count) at hhi
    change q.slots (p &&& q.mask) = (ops.drop n).getD (p - (q.head + min n q.count)) default
    have hheld : q.slots (p &&& q.mask) = ops.getD (p - q.head) default :=
      h.holds p (by omega) (by omega)
    rw [hheld, getD_eq_getElem?_getD, getD_eq_getElem?_getD, getElem?_drop]
    congr 3
    omega

theorem clear_pends : q.clear.Pends [] := by
  have hclear := dropOldest_pends h q.count
  rwa [drop_eq_nil_of_le (by rw [h.count_eq])] at hclear

end

theorem start_pends : ({} : PendingOps).Pends [] :=
  ⟨rfl, ⟨0, rfl⟩, zero_le, by decide, fun _ => rfl, fun p hlo hhi => absurd hhi (by
    change ¬ p < 0
    omega)⟩

end PendingOps

/-! ### Reports -/

def opKey (op : RecordedOp) : Nat := keyOf op.entry.schemaHash op.entry.shapeHash

/-- The iteration of `length` ops that ends `detectorK` ops before the end of a stream. -/
def iterationOps (stream : List RecordedOp) (length : Nat) : List RecordedOp :=
  (stream.drop (stream.length - detectorK - length)).take length

/-- The `length` ops before that iteration. -/
def earlierOps (stream : List RecordedOp) (length : Nat) : List RecordedOp :=
  (stream.drop (stream.length - detectorK - 2 * length)).take length

/-- What the answer to the last op of a stream says when it reports an iteration. -/
structure Reports (stream : List RecordedOp) (length : Nat) (work : Option BuildWork) : Prop where
  positive : 0 < length
  bodies : 2 * length + detectorK ≤ stream.length
  ops_eq : work.map BuildWork.ops = some (iterationOps stream length)
  keys_eq : (earlierOps stream length).map opKey = (iterationOps stream length).map opKey

theorem map_stretch_eq {α : Type} (f : α → Nat) (xs : List α) {a b n : Nat}
    (ha : a + n ≤ xs.length) (hb : b + n ≤ xs.length)
    (h : ∀ i, i < n → (xs.map f).getD (a + i) 0 = (xs.map f).getD (b + i) 0) :
    ((xs.drop a).take n).map f = ((xs.drop b).take n).map f := by
  refine ext_getElem (by simp; omega) fun i hi hi' => ?_
  have hlt : i < n := by
    simp only [length_map, length_take] at hi
    omega
  have heq := h i hlt
  rw [getD_eq_getElem _ _ (by simp; omega), getD_eq_getElem _ _ (by simp; omega)] at heq
  simpa using heq

/-! ### The invariant of the stage -/

namespace DetectStage
open IterationDetector (streamKeys streamKeys_succ)

/-- What holds of the detect stage after `past ++ segment`, when the last reset came
after `past`.  Every op before `claimed` has been in a work item or can never be. -/
structure Follows (st : DetectStage) (past segment : List RecordedOp) (claimed : Nat) : Prop where
  live : ∃ key, st.detector.Live key ∧ streamKeys key st.detector.pos = segment.map opKey
  held : ∃ first, first ≤ st.detector.core.claimFloor ∧ first ≤ segment.length ∧
    st.pending.Pends (segment.drop first)
  claimed_le : claimed ≤ past.length + st.detector.core.claimFloor
  claimed_stream : claimed ≤ past.length + segment.length

variable {st st' : DetectStage} {past segment : List RecordedOp} {claimed : Nat}

theorem Follows.tracks (h : st.Follows past segment claimed) :
    st.detector.core.Tracks (segment.map opKey) := by
  obtain ⟨key, hlive, hkeys⟩ := h.live
  exact hkeys ▸ hlive.tracks

theorem Follows.pos_eq (h : st.Follows past segment claimed) : st.detector.pos = segment.length :=
  h.tracks.ring.pos_eq.trans (length_map _)

theorem Follows.dropUnclaimable (h : st.Follows past segment claimed) :
    st.dropUnclaimableOps.Follows past segment claimed := by
  obtain ⟨first, hfloor, hfir, hpen⟩ := h.held
  have hcount : st.pending.count = segment.length - first :=
    hpen.count_eq.trans (length_drop ..)
  have hstart : st.detector.pos - st.pending.count = first := by
    rw [h.pos_eq]
    omega
  have hle := IterationDetector.oldestClaimable_le h.tracks
  unfold dropUnclaimableOps
  rw [hstart]
  dsimp only
  split
  · rename_i hgt
    have hdrop := PendingOps.dropOldest_pends hpen (st.detector.oldestClaimable - first)
    rw [drop_drop, Nat.add_sub_cancel' hgt.le] at hdrop
    refine ⟨h.live, ⟨min st.detector.oldestClaimable segment.length, ?_, min_le_right _ _, ?_⟩,
      h.claimed_le, h.claimed_stream⟩
    · exact le_trans (min_le_left _ _) hle
    · by_cases hshort : st.detector.oldestClaimable ≤ segment.length
      · rwa [min_eq_left hshort]
      · rw [min_eq_right (by omega), drop_length]
        rwa [drop_eq_nil_of_le (by omega)] at hdrop
  · exact h

/-- **A report** at the end of `past ++ segment` cuts the iteration out of the pending ops. -/
theorem prepare_reports {work : Option BuildWork} {first : Nat}
    (hpen : st.pending.Pends (segment.drop first))
    (hpos : 0 < st.detector.lastCompletedLen)
    (hfir : first + st.detector.lastCompletedLen + detectorK ≤ segment.length)
    (hbod : 2 * st.detector.lastCompletedLen + detectorK ≤ segment.length)
    (hsquare : IterationDetector.SquareAt (segment.map opKey) (segment.length - detectorK)
      st.detector.lastCompletedLen)
    (h : st.prepareIterationBuildWork = .ok (st', work)) (past : List RecordedOp) :
    st'.detector = st.detector ∧ st'.pending.Pends (segment.drop (segment.length - detectorK)) ∧
      Reports (past ++ segment) st.detector.lastCompletedLen work := by
  generalize hlen : st.detector.lastCompletedLen = len at *
  have hcount : st.pending.count = segment.length - first :=
    hpen.count_eq.trans (length_drop ..)
  have hcap : historyMaxCapacity = 2 ^ 19 := rfl
  have htot : wrap32 st.pending.count = segment.length - first := by
    have hroom := hpen.room
    have hle := hpen.mask_le
    rw [← hcount]
    exact Nat.mod_eq_of_lt (by omega)
  unfold prepareIterationBuildWork at h
  rw [htot, hlen] at h
  obtain ⟨iterations, -, h⟩ := bind_ok h
  generalize hwar : segment.length - first - detectorK - len = warmup at h
  have hcom : segment.length - first - warmup - detectorK = len := by omega
  rw [hcom, if_pos hpos] at h
  have hcut := PendingOps.dropOldest_pends hpen warmup
  have hwhere : first + warmup = segment.length - detectorK - len := by omega
  rw [drop_drop, hwhere] at hcut
  have hrest := PendingOps.dropOldest_pends hcut len
  rw [drop_drop, show segment.length - detectorK - len + len = segment.length - detectorK by
    omega] at hrest
  cases h
  have hpast : ∀ n, n ≤ segment.length - detectorK →
      (past ++ segment).drop ((past ++ segment).length - detectorK - n) =
        segment.drop (segment.length - detectorK - n) := by
    intro n hn
    rw [length_append, show past.length + segment.length - detectorK - n =
      past.length + (segment.length - detectorK - n) by omega, drop_length_add_append]
  refine ⟨rfl, hrest, hpos, ?_, ?_, ?_⟩
  · rw [length_append]
    omega
  · rw [Option.map_some, hcut.map_entry (by rw [length_drop]; omega), iterationOps,
      hpast len (by omega)]
  · rw [earlierOps, iterationOps, hpast _ (by omega), hpast _ (by omega)]
    exact map_stretch_eq opKey segment (by omega) (by omega) hsquare

/-- **One op of the detect stage.** -/
theorem Follows.detectOp {op : RecordedOp} {answer : Option (Nat × Option BuildWork)}
    (hf : st.Follows past segment claimed) (h : st.detectOp op = .ok (st', answer)) :
    ∃ claimed', st'.Follows past (segment ++ [op]) claimed' ∧ claimed ≤ claimed' ∧
      ∀ length work, answer = some (length, work) →
        Reports (past ++ (segment ++ [op])) length work ∧
        claimed + length + detectorK ≤ past.length + (segment.length + 1) ∧
        claimed' + detectorK = past.length + (segment.length + 1) := by
  obtain ⟨first, hfloor, hfir, hpen⟩ := hf.held
  obtain ⟨pending, hpush, h⟩ := bind_ok h
  obtain ⟨⟨detector, boundary⟩, hcheck, h⟩ := bind_ok h
  obtain ⟨stream, hstart, hstr⟩ := hf.live
  obtain ⟨key, hlive, hkey, hkeys⟩ := hstart.next op.entry.schemaHash op.entry.shapeHash
  obtain ⟨hlive', hchec⟩ := IterationDetector.check_ok hlive hkey hcheck
  have hmap : streamKeys key st.detector.pos ++ [key st.detector.pos] =
      (segment ++ [op]).map opKey := by
    rw [hkeys, hstr, ← hkey, map_append]
    rfl
  rw [hmap] at hchec
  have hleng : (segment ++ [op]).length = segment.length + 1 := by simp
  have hpos : detector.core.pos = segment.length + 1 := by
    rw [hchec.tracks.ring.pos_eq, length_map, hleng]
  have hkept : ∃ key, detector.Live key ∧
      streamKeys key detector.pos = (segment ++ [op]).map opKey := by
    refine ⟨key, hlive', ?_⟩
    rw [show detector.pos = segment.length + 1 from hpos, ← hf.pos_eq, streamKeys_succ, hmap]
  have hpus : pending.Pends ((segment ++ [op]).drop first) := by
    rw [drop_append_of_le_length hfir]
    exact PendingOps.push_pends hpen hpush
  have hmono := hchec.floor_le
  have hclaim := hf.claimed_le
  have hstr := hf.claimed_stream
  dsimp only at h
  split at h
  · rename_i hboun
    obtain ⟨⟨mid, work⟩, hprep, h⟩ := bind_ok h
    obtain ⟨hposi, hroom⟩ := hchec.body hboun
    have hbod := hchec.bodies hboun
    have hsquare := hchec.square hboun
    have hnew := hchec.floor_eq hboun
    rw [hpos] at hroom hbod hsquare hnew
    obtain ⟨hdet, hrest, hrep⟩ := prepare_reports hpus hposi
      (hleng ▸ le_trans (Nat.add_le_add_right (Nat.add_le_add_right hfloor _) _) hroom)
      (hleng ▸ hbod) (hleng ▸ hsquare) hprep past
    have hlen : detector.core.lastCompletedLen = detector.lastCompletedLen := rfl
    cases h
    refine ⟨past.length + (segment.length + 1 - detectorK), Follows.dropUnclaimable ⟨?_,
      ⟨(segment ++ [op]).length - detectorK, ?_, Nat.sub_le _ _, hrest⟩, ?_, ?_⟩, by omega, ?_⟩
    · rwa [hdet]
    · rw [hdet, hleng]
      exact le_of_eq hnew.symm
    · rw [hdet]
      exact le_of_eq (by rw [← hnew])
    · omega
    · intro length work' heq
      cases heq
      exact ⟨hrep, by omega, by omega⟩
  · cases h
    refine ⟨claimed, Follows.dropUnclaimable ⟨hkept, ⟨first, hfloor.trans hmono, ?_,
      hpus⟩, hclaim.trans (Nat.add_le_add_left hmono _), ?_⟩, le_rfl, nofun⟩
    · omega
    · omega

/-- **A reset** starts a new segment after everything received. -/
theorem Follows.doReset (hf : st.Follows past segment claimed) (h : st.doReset = .ok st') :
    st'.Follows (past ++ segment) [] claimed := by
  obtain ⟨first, -, -, hpen⟩ := hf.held
  obtain ⟨detector, hres, h⟩ := bind_ok h
  obtain ⟨epoch, -, h⟩ := bind_ok h
  cases h
  have hstr := hf.claimed_stream
  obtain ⟨key, hlive, -⟩ := hf.live
  obtain ⟨d', heq, hlive', -, -, hpos⟩ :=
    IterationDetector.restartAfterDivergence_spec hlive key
  cases hres.symm.trans heq
  refine ⟨⟨key, hlive', by rw [hpos]; rfl⟩, ⟨0, zero_le, zero_le, PendingOps.clear_pends hpen⟩,
    ?_, ?_⟩
  · rw [length_append]
    omega
  · rw [length_append]
    omega

theorem start_follows : ({} : DetectStage).Follows [] [] 0 :=
  ⟨⟨fun _ => 0, IterationDetector.start_live _, rfl⟩,
    ⟨0, zero_le, zero_le, PendingOps.start_pends⟩, zero_le, zero_le⟩

end DetectStage

/-! ### Runs -/

def opsOf (events : List DetectEvent) : List RecordedOp :=
  events.filterMap fun
    | .op op => some op
    | .reset => none

theorem opsOf_append (events events' : List DetectEvent) :
    opsOf (events ++ events') = opsOf events ++ opsOf events' :=
  filterMap_append

variable {past segment : List RecordedOp}

/-- What one event adds to the stream, and what its answer reports. -/
theorem DetectStage.Follows.detectEvent {st st' : DetectStage}
    {claimed : Nat} {e : DetectEvent} {answer : Option (Nat × Option BuildWork)}
    (hf : st.Follows past segment claimed) (h : detectEvent st e = .ok (st', answer)) :
    ∃ past' segment' claimed', st'.Follows past' segment' claimed' ∧
      past' ++ segment' = past ++ segment ++ opsOf [e] ∧ claimed ≤ claimed' ∧
      ∀ length work, answer = some (length, work) → Reports (past' ++ segment') length work ∧
        claimed + length + detectorK ≤ (past' ++ segment').length ∧
        claimed' + detectorK = (past' ++ segment').length := by
  cases e with
  | op op =>
    obtain ⟨claimed', hf', hle, hrepo⟩ := hf.detectOp h
    refine ⟨past, segment ++ [op], claimed', hf', (append_assoc ..).symm, hle, ?_⟩
    intro length work heq
    obtain ⟨hrep, hfrom, hend⟩ := hrepo length work heq
    simp only [length_append, length_singleton]
    exact ⟨hrep, hfrom, hend⟩
  | reset =>
    obtain ⟨mid, hres, h⟩ := bind_ok h
    cases h
    exact ⟨past ++ segment, [], claimed, hf.doReset hres, rfl, le_rfl, nofun⟩

/-- The `n`th answer of a run, when it reports an iteration. -/
def reportAt (answers : List (Option (Nat × Option BuildWork))) (n : Nat) :
    Option (Nat × Option BuildWork) :=
  (answers[n]?).join

/-- **A run of the detect stage** from any state that follows its stream. -/
theorem DetectStage.Follows.runDetect {st st' : DetectStage}
    {claimed : Nat} {events : List DetectEvent} {answers : List (Option (Nat × Option BuildWork))}
    (hf : st.Follows past segment claimed) (h : runDetect st events = .ok (st', answers)) :
    (∀ n length work, reportAt answers n = some (length, work) →
      Reports (past ++ segment ++ opsOf (events.take (n + 1))) length work ∧
      claimed + length + detectorK ≤ (past ++ segment ++ opsOf (events.take (n + 1))).length) ∧
    ∀ n n' length work length' work', n < n' → reportAt answers n = some (length, work) →
      reportAt answers n' = some (length', work') →
      (past ++ segment ++ opsOf (events.take (n + 1))).length + length' ≤
        (past ++ segment ++ opsOf (events.take (n' + 1))).length := by
  induction events generalizing st past segment claimed answers with
  | nil =>
    cases h
    exact ⟨nofun, nofun⟩
  | cons e events ih =>
    obtain ⟨⟨mid, answer⟩, hevent, h⟩ := bind_ok h
    obtain ⟨⟨final, rest⟩, hrest, h⟩ := bind_ok h
    cases h
    obtain ⟨past', segment', claimed', hf', hstr, hle, hrepo⟩ := hf.detectEvent hevent
    obtain ⟨hitems, hdis⟩ := ih hf' hrest
    have hnext : ∀ n, past ++ segment ++ opsOf ((e :: events).take (n + 1)) =
        past' ++ segment' ++ opsOf (events.take n) := by
      intro n
      rw [hstr, append_assoc _ (opsOf [e]), ← opsOf_append]
      rfl
    have hhead : past ++ segment ++ opsOf ((e :: events).take 1) = past' ++ segment' := by
      rw [hnext 0]
      exact append_nil _
    refine ⟨fun n length work hn => ?_, fun n n' length work length' work' hlt hn hn' => ?_⟩
    · cases n with
      | zero =>
        obtain ⟨hrep, hfrom, -⟩ := hrepo length work hn
        rw [hhead]
        exact ⟨hrep, hfrom⟩
      | succ n =>
        obtain ⟨hrep, hfrom⟩ := hitems n length work hn
        rw [hnext]
        exact ⟨hrep, by omega⟩
    · cases n' with
      | zero => exact absurd hlt (Nat.not_lt_zero n)
      | succ n' =>
        obtain ⟨-, hfrom⟩ := hitems n' length' work' hn'
        cases n with
        | zero =>
          obtain ⟨-, -, hend⟩ := hrepo length work hn
          rw [hnext (n' + 1), hhead]
          omega
        | succ n =>
          rw [hnext, hnext]
          exact hdis n n' length work length' work' (by omega) hn hn'

/-- **Every work item is the iteration its boundary reports.**  Over every stream of ops
and resets, an answer that reports `length` carries exactly the `length` ops that end
`detectorK` ops before the newest op, the ops before them have the same keys, and the
iterations of two answers have no op in common. -/
theorem workItems_exact {events : List DetectEvent} {st : DetectStage}
    {answers : List (Option (Nat × Option BuildWork))}
    (h : runDetect {} events = .ok (st, answers)) :
    (∀ n length work, reportAt answers n = some (length, work) →
      Reports (opsOf (events.take (n + 1))) length work) ∧
    ∀ n n' length work length' work', n < n' → reportAt answers n = some (length, work) →
      reportAt answers n' = some (length', work') →
      (opsOf (events.take (n + 1))).length - detectorK ≤
        (opsOf (events.take (n' + 1))).length - detectorK - length' := by
  obtain ⟨hitems, hdisjoint⟩ := DetectStage.start_follows.runDetect h
  refine ⟨fun n length work hn => (hitems n length work hn).1, ?_⟩
  intro n n' length work length' work' hlt hn hn'
  have hle := hdisjoint n n' length work length' work' hlt hn hn'
  simp only [nil_append] at hle
  omega

/-- Fifteen ops that repeat a body of five. -/
def repeatedOps : List DetectEvent :=
  (range 15).map fun i =>
    .op { entry := { schemaHash := i % 5, shapeHash := 0 }, callsiteHash := i }

theorem repeatedOps_answers : ∃ st answers work, runDetect {} repeatedOps = .ok (st, answers) ∧
      reportAt answers 14 = some (5, work) := by
  obtain ⟨⟨st, answers⟩, hrun, hrep⟩ : ∃ r, runDetect {} repeatedOps = .ok r ∧
      (reportAt r.2 14).map Prod.fst = some 5 := ok_of_eval (by decide +kernel)
  obtain ⟨⟨length, work⟩, hat, rfl⟩ := Option.map_eq_some_iff.mp hrep
  exact ⟨st, answers, work, hrun, hat⟩

theorem workItems_exact_repeated : ∃ st answers work, runDetect {} repeatedOps = .ok (st, answers) ∧
      reportAt answers 14 = some (5, work) ∧ Reports (opsOf (repeatedOps.take 15)) 5 work := by
  obtain ⟨st, answers, work, hrun, hat⟩ := repeatedOps_answers
  exact ⟨st, answers, work, hrun, hat, (workItems_exact hrun).1 14 5 work hat⟩

end Crucible
