import Crucible.IterationDetector

/-! # The history of the detector

The part of the detector that decides boundaries: the ring of keys, the window of indexes
it holds, and the accepted period.  The window table and the fingerprints only choose
among periods, so `core` leaves them out.  `Tracks` is the invariant of the core, and
`Received` says what an op that is stored does to it.
-/
namespace Crucible
namespace IterationDetector

/-- The part of the detector that boundaries depend on. -/
structure Core where
  pos : Nat
  base : Nat
  period : Nat
  nextBoundary : Nat
  signatureLen : Nat
  lastCompletedLen : Nat
  historyMask : Nat
  keys : Nat → Nat

def core (d : IterationDetector) : Core :=
  { pos := d.pos
    base := d.base
    period := d.period
    nextBoundary := d.nextBoundary
    signatureLen := d.signatureLen
    lastCompletedLen := d.lastCompletedLen
    historyMask := d.historyMask
    keys := d.keys }

/-! ### The ring of keys -/

theorem heldFrom_eq (d : IterationDetector) : d.heldFrom = d.base - 1 := by
  unfold heldFrom
  split <;> omega

/-- The ring holds the keys from the op before `base` on, and has room for them. -/
structure Core.Ring (c : Core) (keys : List Nat) : Prop where
  pos_eq : c.pos = keys.length
  base_le : c.base ≤ c.pos
  empty : c.historyMask = 0 → c.pos = 0
  mask_pow : PowMask c.historyMask
  mask_le : c.historyMask + 1 ≤ historyMaxCapacity
  room : c.pos - (c.base - 1) ≤ c.historyMask + 1
  holds : Ring.Holds c.historyMask c.keys (fun p => keys.getD p 0) (c.base - 1) c.pos

section History
variable {d d' : IterationDetector} {keys : List Nat}

theorem powMask_double {mask : Nat} (h : PowMask mask) : PowMask ((mask + 1) * 2 - 1) := by
  obtain ⟨k, hk⟩ := h
  exact ⟨k + 1, by omega⟩

theorem powMask_double_le {mask : Nat} (h : PowMask mask)
    (hlt : mask + 1 < historyMaxCapacity) : (mask + 1) * 2 ≤ historyMaxCapacity := by
  obtain ⟨k, hk⟩ := h
  rw [hk] at hlt ⊢
  have hk19 : k < 19 := (Nat.pow_lt_pow_iff_right (by decide)).mp hlt
  calc 2 ^ k * 2 = 2 ^ (k + 1) := (pow_succ ..).symm
    _ ≤ 2 ^ 19 := Nat.pow_le_pow_right (by decide) hk19

/-- What `make_room_` leaves: the same keys in a ring with a free slot, and at most the
oldest ones gone. -/
structure Room (c c' : Core) (keys : List Nat) : Prop where
  same : c' = { c with base := c'.base, historyMask := c'.historyMask, keys := c'.keys }
  base_le : c.base ≤ c'.base
  base_or : c'.base = c.base ∨ c'.base + historyMaxCapacity = c.pos + 2
  mask_ne : c'.historyMask ≠ 0
  mask_pow : PowMask c'.historyMask
  mask_le : c'.historyMask + 1 ≤ historyMaxCapacity
  room : c.pos + 1 - (c'.base - 1) ≤ c'.historyMask + 1
  holds : Ring.Holds c'.historyMask c'.keys (fun p => keys.getD p 0) (c'.base - 1) c.pos

/-- The core after an op has been stored: the ring holds one more key. -/
structure Received (c c' : Core) (keys : List Nat) (key : Nat) : Prop where
  ring : c'.Ring (keys ++ [key])
  pos_eq : c'.pos = c.pos + 1
  sig_eq : c'.signatureLen =
    if c.signatureLen < detectorK then c.signatureLen + 1 else c.signatureLen
  period_eq : c'.period = c.period
  next_eq : c'.nextBoundary = c.nextBoundary
  base_le : c.base ≤ c'.base
  base_or : c'.base = c.base ∨ c'.base + historyMaxCapacity = c.pos + 2

def Core.stored (c : Core) (key : Nat) : Core :=
  { c with
    keys := Function.update c.keys (c.pos &&& c.historyMask) key
    pos := c.pos + 1
    signatureLen := if c.signatureLen < detectorK then c.signatureLen + 1 else c.signatureLen }

theorem Room.received {c c' : Core} (hring : c.Ring keys) (h : Room c c' keys) (key : Nat) :
    Received c (c'.stored key) keys key := by
  have hpos : c'.pos = c.pos := (congrArg Core.pos h.same :)
  have hsig : c'.signatureLen = c.signatureLen := (congrArg Core.signatureLen h.same :)
  have hlen := hring.pos_eq
  have hbase := hring.base_le
  have hor := h.base_or
  have hspace := h.room
  have hmax : historyMaxCapacity = 2 ^ 19 := rfl
  refine ⟨⟨?_, ?_, fun hz => absurd hz h.mask_ne, h.mask_pow, h.mask_le, ?_, ?_⟩,
    congrArg (· + 1) hpos, ?_, (congrArg Core.period h.same :),
    (congrArg Core.nextBoundary h.same :),
    h.base_le, h.base_or⟩
  · change c'.pos + 1 = (keys ++ [key]).length
    rw [hpos, hlen, List.length_append, List.length_singleton]
  · change c'.base ≤ c'.pos + 1
    omega
  · change c'.pos + 1 - (c'.base - 1) ≤ c'.historyMask + 1
    omega
  · have hhol := h.holds
    rw [hlen] at hhol
    have hstore := hhol.push (x := key) h.mask_pow (by omega)
    rwa [← hlen, ← hpos] at hstore
  · change (if c'.signatureLen < detectorK then _ else _) = _
    rw [hsig]

theorem windowsEqual_keys (hring : d.core.Ring keys) {left right length : Nat}
    (hleft : d.base ≤ left) (hrig : d.base ≤ right) (hleft' : left + length ≤ d.pos)
    (hrig' : right + length ≤ d.pos) (h : d.windowsEqual left right length = true) :
    ∀ i, i < length → keys.getD (left + i) 0 = keys.getD (right + i) 0 := by
  intro i hi
  have hkeys := (of_decide_eq_true h).2 i hi
  have hheld : ∀ p, d.base ≤ p → p < d.pos → d.keys (p &&& d.historyMask) = keys.getD p 0 :=
    fun p hlo hhi => hring.holds p (le_trans (Nat.sub_le _ _) hlo) hhi
  rwa [hheld _ (by omega) (by omega), hheld _ (by omega) (by omega)] at hkeys

/-- The keys before `start` end with two copies of one body of `period` keys. -/
def SquareAt (keys : List Nat) (start period : Nat) : Prop :=
  ∀ i, i < period → keys.getD (start - 2 * period + i) 0 = keys.getD (start - period + i) 0

theorem isSquare_keys (hring : d.core.Ring keys) {start period : Nat}
    (hstart : d.base + 2 * period ≤ start) (hend : start ≤ d.pos)
    (h : d.isSquare start period = true) : SquareAt keys start period :=
  windowsEqual_keys hring (by omega) (by omega) (by omega) (by omega) h

end History

/-! ### Reports and searches -/

def Core.fired (c : Core) : Core :=
  { c with
    lastCompletedLen := c.period
    nextBoundary := c.nextBoundary + c.period
    base := max c.base (c.nextBoundary - c.period) }

section Check
variable {d d' : IterationDetector} {keys : List Nat} {b : Bool}

variable {bodySum length start link key schemaHash shapeHash : Nat}

theorem searchLoop_some {tests : Nat} (h : d.searchLoop start tests link = some (length, bodySum)) :
    ∃ period, length = wrap32 period ∧ detectorK ≤ period ∧ 2 * period ≤ start - d.base ∧
      d.isSquare start period = true := by
  induction tests generalizing link with
  | zero => cases h
  | succ tests ih =>
    unfold searchLoop at h
    split at h
    · cases h
    dsimp only at h
    split at h
    · cases h
    split at h
    · cases h
    split at h
    · rename_i hwide hgood
      cases h
      exact ⟨_, rfl, hgood.1, by omega, hgood.2.1⟩
    · exact ih h

/-! ### The invariant of a run -/

/-- What holds of the core after any run of checks that has received `keys`: the ring
holds the newest of them, and an accepted period has both its copies in the history
and its next boundary ahead. -/
structure Core.Tracks (c : Core) (keys : List Nat) : Prop where
  ring : c.Ring keys
  sig_eq : c.signatureLen = min c.pos detectorK
  base_or : c.base = 0 ∨ c.base + detectorK ≤ c.pos
  min_le : c.period ≠ 0 → detectorK ≤ c.period
  le_max : c.period ≠ 0 → c.period ≤ maxPeriod
  bodies : c.period ≠ 0 → c.base + 2 * c.period ≤ c.nextBoundary
  ahead : c.period ≠ 0 → c.pos < c.nextBoundary + detectorK

variable {c r : Core}

theorem Received.tracks (ht : c.Tracks keys)
    (hr : Received c r keys key) : r.base = 0 ∨ r.base + detectorK ≤ r.pos := by
  have hpos := hr.pos_eq
  have hmaxC : historyMaxCapacity = 2 ^ 19 := rfl
  have hK : detectorK = 5 := rfl
  rcases hr.base_or with hbase | hbase <;> rcases ht.base_or with hold | hold <;> omega

theorem Received.sig (ht : c.Tracks keys)
    (hr : Received c r keys key) : r.signatureLen = min r.pos detectorK := by
  rw [hr.sig_eq, hr.pos_eq, ht.sig_eq]
  split <;> omega

theorem Received.bodies (ht : c.Tracks keys) (hr : Received c r keys key) (hper : r.period ≠ 0) :
    r.base + 2 * r.period ≤ r.nextBoundary := by
  rw [hr.period_eq] at hper ⊢
  rw [hr.next_eq]
  have hmax : c.period ≤ (historyMaxCapacity - detectorK - 1) / 2 := ht.le_max hper
  have hbod := ht.bodies hper
  have hahead := ht.ahead hper
  rcases hr.base_or with hbase | hbase <;> omega

end Check

end IterationDetector
end Crucible
