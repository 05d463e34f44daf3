import Crucible.DetectorClaims
import Crucible.DetectorWindows

/-! # Receiving an op

`receive` makes room in the ring, and then stores the key of the op.  A ring that grows
while the detector searches gets a new table with two slots for each of its own.  A ring
that grows while a period holds keeps the old table.  `makeRoom_spec` and `receive_spec`
say that both end, what they keep, and what the two sizes are after them.
-/
namespace Crucible
open Function
namespace IterationDetector
open OpenAddressing

variable (d : IterationDetector)

/-- The fields outside the history and its table. -/
def frame : IterationDetector :=
  { d with
    base := 0
    keys := fun _ => 0
    prefixPolys := fun _ => 0
    prefixSums := fun _ => 0
    earlierLinks := fun _ => 0
    historyMask := 0
    table := fun _ => {}
    tableMask := 0
    tableUsed := 0 }

def streamKeys (key : Nat → Nat) (n : Nat) : List Nat := (List.range n).map key

theorem streamKeys_succ (key : Nat → Nat) (n : Nat) :
    streamKeys key (n + 1) = streamKeys key n ++ [key n] := by
  rw [streamKeys, List.range_succ, List.map_append]
  rfl

theorem streamKeys_getD (key : Nat → Nat) {n i : Nat} (h : i < n) :
    (streamKeys key n).getD i 0 = key i := by
  rw [streamKeys, List.getD_eq_getElem?_getD, List.getElem?_map, List.getElem?_range h]
  rfl

/-- The detector holds the newest keys of a stream with their fingerprints, and while it
searches its table and its links cover the windows up to `stop`. -/
structure Holding (key : Nat → Nat) (stop : Nat) : Prop where
  ring : d.core.Ring (streamKeys key d.pos)
  prints : d.Prints key
  table_pow : PowMask d.tableMask
  table_lt : d.tableMask < 2 ^ 64
  windows : d.period = 0 → d.Windowed key d.base stop

/-- The invariant between two calls. -/
structure Live (key : Nat → Nat) : Prop where
  tracks : d.core.Tracks (streamKeys key d.pos)
  holding : d.Holding key (d.pos + 1 - detectorK)
  fresh : d.tableMask = 0 → d.historyMask = 0 ∧ d.period = 0

def TableRoom : Prop :=
  d.period = 0 → d.historyMask ≤ d.tableMask ∨ d.pos + 1 < d.tableMask + 1 + detectorK

/-- There is room in the table while the largest ring drops its oldest ops. -/
def DropRoom : Prop :=
  d.period = 0 → d.historyMask + 1 = historyMaxCapacity →
    d.historyMask + 1 < d.pos + 1 - (d.base - 1) → d.pos + 1 - detectorK - d.base < d.tableMask + 1

/-- The sizes of the ring and of the table after the ring has made room for an op. -/
inductive RoomSizes (d d' : IterationDetector) : Prop
  /-- The ring has a free slot. -/
  | fits (hmask : d.historyMask ≠ 0) (hfits : d.pos + 1 - (d.base - 1) ≤ d.historyMask + 1)
      (hbase : d'.base = d.base) (hhistory : d'.historyMask = d.historyMask)
      (htable : d'.tableMask = d.tableMask)
  /-- The largest ring drops its oldest ops. -/
  | drops (hfull : d.historyMask + 1 < d.pos + 1 - (d.base - 1))
      (hlarge : d.historyMask + 1 = historyMaxCapacity) (hhistory : d'.historyMask = d.historyMask)
      (htable : d'.tableMask = d.tableMask)
  /-- The ring grows. -/
  | grows (hfull : d.historyMask = 0 ∨ d.historyMask + 1 < d.pos + 1 - (d.base - 1))
      (hhistory : d'.historyMask + 1 =
        if d.historyMask = 0 then historyMinCapacity else (d.historyMask + 1) * 2)
      (hbase : d'.base = d.base)
      (hsearch : d.period = 0 → d'.tableMask + 1 = (d'.historyMask + 1) * 2)
      (hheld : d.period ≠ 0 → d'.tableMask = d.tableMask)

section
variable {d : IterationDetector} {key : Nat → Nat}

/-- What a ring that has made room for an op keeps. -/
structure MadeRoom (d d' : IterationDetector) (key : Nat → Nat) : Prop where
  frame_eq : d'.frame = d.frame
  sizes : RoomSizes d d'
  room : Room d.core d'.core (streamKeys key d.pos)
  prints : d'.Prints key
  table_pow : PowMask d'.tableMask
  table_lt : d'.tableMask < 2 ^ 64
  windows : d.period = 0 → d'.Windowed key d'.base (d.pos + 1 - detectorK)

def moved (newMask : Nat) : IterationDetector :=
  { d with
    keys := Ring.copy d.historyMask newMask d.keys 0 d.heldFrom d.pos
    prefixPolys := Ring.copy d.historyMask newMask d.prefixPolys 0 d.heldFrom d.pos
    prefixSums := Ring.copy d.historyMask newMask d.prefixSums 0 d.heldFrom d.pos
    earlierLinks := Ring.copy d.historyMask newMask d.earlierLinks 0 d.heldFrom d.pos
    historyMask := newMask }

theorem growHistory_eq (newCapacity : Nat) : d.growHistory newCapacity =
    if d.period = 0 then (d.moved (newCapacity - 1)).rebuildTable (newCapacity * 2)
      (if d.pos + 1 > detectorK then d.pos + 1 - detectorK else 0)
    else .ok (d.moved (newCapacity - 1)) :=
  rfl

/-- **The ring grows** and keeps the history. -/
theorem growHistory_spec (h : d.Holding key (d.pos + 1 - detectorK)) {newCapacity : Nat}
    (hfull : d.historyMask = 0 ∨ d.historyMask + 1 < d.pos + 1 - (d.base - 1))
    (hcap : newCapacity =
      if d.historyMask = 0 then historyMinCapacity else (d.historyMask + 1) * 2)
    (hpow : PowMask (newCapacity - 1)) (hle : newCapacity ≤ historyMaxCapacity)
    (hroom : d.pos + 1 - (d.base - 1) ≤ newCapacity) :
    ∃ d', d.growHistory newCapacity = .ok d' ∧ MadeRoom d d' key := by
  have hmax : historyMaxCapacity = 2 ^ 19 := rfl
  have hmin : historyMinCapacity = 2 ^ 12 := rfl
  have hone : 1 < newCapacity := by
    rw [hcap]
    split <;> omega
  have hhis : newCapacity - 1 + 1 = _ := (Nat.sub_add_cancel (by omega)).trans hcap
  have hprin : (d.moved (newCapacity - 1)).Prints key := by
    show Ring.Holds _ (Ring.copy _ _ _ _ d.heldFrom _) _ _ _
    rw [heldFrom_eq]
    exact Ring.Holds.copy hpow h.prints (by omega) 0
  have hmade : Room d.core (d.moved (newCapacity - 1)).core (streamKeys key d.pos) := by
    refine ⟨rfl, le_rfl, .inl rfl, show newCapacity - 1 ≠ 0 by omega, hpow,
      show newCapacity - 1 + 1 ≤ _ by omega,
      show d.pos + 1 - (d.base - 1) ≤ newCapacity - 1 + 1 by omega, ?_⟩
    show Ring.Holds _ (Ring.copy _ _ _ _ d.heldFrom _) _ _ _
    rw [heldFrom_eq]
    exact h.ring.holds.copy hpow (show d.pos ≤ d.base - 1 + (newCapacity - 1 + 1) by omega) 0
  rw [growHistory_eq]
  by_cases hper : d.period = 0
  · have hdoub : PowMask (newCapacity * 2 - 1) := by
      have := powMask_double hpow
      rwa [Nat.sub_add_cancel (by omega)] at this
    rw [if_pos hper, show (if d.pos + 1 > detectorK then d.pos + 1 - detectorK else 0) =
      d.pos + 1 - detectorK by split <;> omega]
    obtain ⟨table, used, links, hreb, hwin⟩ := rebuildTable_spec hprin _ _ hdoub
      (show newCapacity * 2 - 1 < 2 ^ 64 by omega)
      (show d.pos + 1 - detectorK - d.base ≤ newCapacity * 2 by omega) le_rfl hpow
      (show d.pos + 1 - detectorK - d.base ≤ newCapacity - 1 + 1 by omega)
    refine ⟨_, hreb, rfl, .grows hfull hhis rfl (fun _ => ?_) (absurd hper), hmade,
      hprin, hdoub, show newCapacity * 2 - 1 < 2 ^ 64 by omega, fun _ => hwin⟩
    show newCapacity * 2 - 1 + 1 = (newCapacity - 1 + 1) * 2
    omega
  · rw [if_neg hper]
    exact ⟨_, rfl, rfl, .grows hfull hhis rfl (fun hzero => absurd hzero hper) fun _ => rfl,
      hmade, hprin, h.table_pow, h.table_lt, fun hzero => absurd hzero hper⟩

theorem TableRoom.drop (hroom : d.TableRoom) (hring : d.core.Ring (streamKeys key d.pos)) :
    d.DropRoom := by
  intro hper _ _
  have hslots : d.pos - (d.base - 1) ≤ d.historyMask + 1 := hring.room
  have hK : detectorK = 5 := rfl
  have := hroom hper
  omega

/-- **The ring makes room** for an op. -/
theorem makeRoom_cases (h : d.Live key) : (d.makeRoom = .error .endless ∧ ¬ d.DropRoom) ∨
      ∃ d', d.makeRoom = .ok d' ∧ MadeRoom d d' key := by
  have hring := h.holding.ring
  have hpow : PowMask d.historyMask := hring.mask_pow
  have hmask : d.historyMask + 1 ≤ historyMaxCapacity := hring.mask_le
  have hslots : d.pos - (d.base - 1) ≤ d.historyMask + 1 := hring.room
  have hmax : historyMaxCapacity = 2 ^ 19 := rfl
  have hK : detectorK = 5 := rfl
  unfold makeRoom
  rw [heldFrom_eq]
  by_cases hzero : d.historyMask = 0
  · have hmin : historyMinCapacity = 2 ^ 12 := rfl
    rw [if_pos hzero]
    exact .inr (growHistory_spec h.holding (.inl hzero) (if_pos hzero).symm ⟨12, rfl⟩ (by decide)
      (by omega))
  rw [if_neg hzero]
  by_cases hfits : d.pos + 1 - (d.base - 1) ≤ d.historyMask + 1
  · rw [if_pos hfits]
    exact .inr ⟨d, rfl, rfl, .fits hzero hfits rfl rfl rfl, ⟨rfl, le_rfl, .inl rfl, hzero,
      hpow, hmask, hfits, hring.holds⟩, h.holding.prints, h.holding.table_pow, h.holding.table_lt,
      h.holding.windows⟩
  rw [if_neg hfits]
  by_cases hsmall : d.historyMask + 1 < historyMaxCapacity
  · rw [if_pos hsmall]
    exact .inr (growHistory_spec h.holding (.inr (by omega)) (if_neg hzero).symm
      (powMask_double hpow) (powMask_double_le hpow hsmall) (by omega))
  rw [if_neg hsmall]
  have hlar : d.historyMask + 1 = historyMaxCapacity := by omega
  have hlat : d.base - 1 ≤ d.pos + 2 - (d.historyMask + 1) - 1 := by omega
  have hmade : Room d.core { d.core with base := d.pos + 2 - (d.historyMask + 1) }
      (streamKeys key d.pos) := by
    refine ⟨rfl, ?_, .inr ?_, hzero, hpow, hmask, ?_, hring.holds.mono hlat le_rfl⟩
    · show d.base ≤ d.pos + 2 - (d.historyMask + 1)
      omega
    · show d.pos + 2 - (d.historyMask + 1) + historyMaxCapacity = d.pos + 2
      omega
    · show d.pos + 1 - (d.pos + 2 - (d.historyMask + 1) - 1) ≤ d.historyMask + 1
      omega
  have hprin : ({ d with base := d.pos + 2 - (d.historyMask + 1) } : IterationDetector).Prints
      key := h.holding.prints.mono hlat le_rfl
  by_cases hper : d.period = 0
  · rcases forgetBefore_cases hper (h.holding.windows hper) h.holding.prints
      (show d.base ≤ d.pos + 2 - (d.historyMask + 1) by omega)
      (show d.pos + 2 - (d.historyMask + 1) + detectorK ≤ d.pos + 1 by omega) with
      ⟨hend, hfull⟩ | ⟨table, used, hfor, hwin⟩
    · exact .inl ⟨hend, fun hroom => hfull (hroom hper hlar (by omega))⟩
    · exact .inr ⟨_, hfor, rfl, .drops (by omega) hlar rfl rfl, hmade, hprin,
        hwin.indexed.pow, hwin.indexed.lt, fun _ => hwin⟩
  · exact .inr ⟨_, bind_of_ok (if_neg hper), rfl, .drops (by omega) hlar rfl rfl, hmade,
      hprin, h.holding.table_pow, h.holding.table_lt, fun hzero => absurd hzero hper⟩

theorem Windowed.congr {d' : IterationDetector} {lo hi : Nat} (h : d.Windowed key lo hi)
    (htab : d'.table = d.table) (hmask : d'.tableMask = d.tableMask)
    (hlin : ∀ s, lo ≤ s → s < hi →
      d'.earlierLinks (s &&& d'.historyMask) = d.earlierLinks (s &&& d.historyMask)) :
    d'.Windowed key lo hi := by
  have hhome : d'.homeSlot = d.homeSlot := by
    funext fingerprint
    rw [homeSlot, homeSlot, hmask]
  refine ⟨⟨hmask ▸ h.indexed.pow, hmask ▸ h.indexed.lt, ?_⟩, fun s hlo hhi => ?_⟩
  · rw [hhome, hmask, htab]
    exact h.indexed.stores
  · rw [hlin s hlo hhi]
    exact h.links s hlo hhi

/-- What an op leaves: its key is held, and its window is not linked yet. -/
structure Receives (d r : IterationDetector) (key : Nat → Nat) : Prop where
  sizes : RoomSizes d r
  core : Received d.core r.core (streamKeys key d.pos) (key d.pos)
  holding : r.Holding key (r.pos - detectorK)
  frame_eq : r.frame = { d.frame with
    opsSinceBoundary := d.opsSinceBoundary + 1
    pos := d.pos + 1
    signatureLen :=
      if d.signatureLen < detectorK then d.signatureLen + 1 else d.signatureLen }

theorem Live.counted (h : d.Live key) (opsSinceBoundary : Nat) (refuted : Nat → RefutedPeriod)
    (refutedCount refutedNext : Nat) : ({ d with
      opsSinceBoundary, refuted, refutedCount, refutedNext } : IterationDetector).Live key :=
  ⟨h.tracks, ⟨h.holding.ring, h.holding.prints, h.holding.table_pow, h.holding.table_lt,
    fun hper => (h.holding.windows hper).congr rfl rfl fun _ _ _ => rfl⟩, h.fresh⟩

/-- What `receive` leaves of a detector that has made room for the op. -/
def stored (key : Nat) : IterationDetector :=
  let slot := d.pos &&& d.historyMask
  { d with
    keys := update d.keys slot key
    prefixPolys := update d.prefixPolys slot
      (wrap64 (d.prefixPolyBefore d.pos * polyBase + key))
    prefixSums := update d.prefixSums slot
      (wrap64 (d.prefixSumBefore d.pos + fmix64 (key ^^^ sumSalt)))
    earlierLinks := update d.earlierLinks slot 0
    pos := d.pos + 1
    signatureLen := if d.signatureLen < detectorK then d.signatureLen + 1 else d.signatureLen }

/-- **An op is received.** -/
theorem receive_cases (h : d.Live key) {schemaHash shapeHash : Nat}
    (hkey : keyOf schemaHash shapeHash = key d.pos) (hops : d.opsSinceBoundary ≠ u32Max) :
    (d.receive schemaHash shapeHash = .error .endless ∧ ¬ d.DropRoom) ∨
      ∃ r, d.receive schemaHash shapeHash = .ok r ∧ Receives d r key := by
  rcases makeRoom_cases (h.counted (d.opsSinceBoundary + 1) d.refuted d.refutedCount
    d.refutedNext) with ⟨hend, hfull⟩ | ⟨mid, hmid, hmade⟩
  · refine .inl ⟨?_, hfull⟩
    refine (bind_of_ok (if_neg hops)).trans ?_
    rw [append, hend]
    rfl
  have hrece : d.receive schemaHash shapeHash = .ok (mid.stored (key d.pos)) := by
    refine (bind_of_ok (if_neg hops)).trans ?_
    rw [append, hmid, hkey]
    rfl
  have hrec := hmade.room.received h.tracks.ring (key d.pos)
  have hpos : mid.pos = d.pos := (congrArg IterationDetector.pos hmade.frame_eq :)
  have hper : mid.period = d.period := (congrArg IterationDetector.period hmade.frame_eq :)
  have hsig : mid.signatureLen = d.signatureLen :=
    (congrArg IterationDetector.signatureLen hmade.frame_eq :)
  have hpow : PowMask mid.historyMask := hmade.room.mask_pow
  have hspace : d.pos + 1 - (mid.base - 1) ≤ mid.historyMask + 1 := hmade.room.room
  have hbase : mid.base = d.base ∨ mid.base + historyMaxCapacity = d.pos + 2 := hmade.room.base_or
  have hle : d.base ≤ d.pos := h.tracks.ring.base_le
  have hmax : historyMaxCapacity = 2 ^ 19 := rfl
  have hK : detectorK = 5 := rfl
  refine .inr ⟨_, hrece, ?_, hrec, ⟨?_, ?_, hmade.table_pow, hmade.table_lt,
    fun hzero => ?_⟩, ?_⟩
  · cases hmade.sizes with
    | fits hmask hfits hbase hhis htab => exact .fits hmask hfits hbase hhis htab
    | drops hfull hlar hhis htab => exact .drops hfull hlar hhis htab
    | grows hfull hhis hbase hsear hheld =>
      exact .grows hfull hhis hbase hsear hheld
  · show Core.Ring _ (streamKeys key (mid.pos + 1))
    rw [hpos, streamKeys_succ]
    exact hrec.ring
  · -- the new prefix fingerprint goes one key further
    show Ring.Holds mid.historyMask (update mid.prefixPolys (mid.pos &&& mid.historyMask)
      (wrap64 (mid.prefixPolyBefore mid.pos * polyBase + key d.pos)))
      (fun p => prefixHash polyBase (2 ^ 64) key (p + 1)) (mid.base - 1) (mid.pos + 1)
    have hnew : wrap64 (mid.prefixPolyBefore mid.pos * polyBase + key d.pos) =
        prefixHash polyBase (2 ^ 64) key (mid.pos + 1) := by
      rw [hmade.prints.before (by omega) le_rfl, ← hpos]
      rfl
    rw [hnew]
    exact Ring.Holds.store hpow hmade.prints (by omega)
  · have hwin := hmade.windows (hper.symm.trans hzero)
    show Windowed _ key mid.base (mid.pos + 1 - detectorK)
    rw [hpos]
    refine hwin.congr rfl rfl fun s hlo hhi => update_of_ne ?_ _ _
    have hs : s < d.pos + 1 - detectorK := hhi
    exact Ring.slot_ne hpow (by omega) (by omega)
  · show { mid.frame with
      pos := mid.pos + 1
      signatureLen :=
        if mid.signatureLen < detectorK then mid.signatureLen + 1 else mid.signatureLen } = _
    rw [hpos, hsig, hmade.frame_eq]
    rfl

end
end IterationDetector
end Crucible
