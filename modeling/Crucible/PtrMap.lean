import Crucible.RingBuffer
import Crucible.TraceBuild

/-! # The pointer map refines a bounded map

With a power-of-two capacity the probe sequence of the pointer map reaches every
cell, so its cells of the current generation represent a `BoundedMap` from
addresses to their last producer, port and slot.  `ptrMapLookup_eq` and
`ptrMapInsert_spec` say what the two operations do to that map, and the builder's
proofs never look at a cell again.
-/
namespace Crucible
open Function
open OpenAddressing

def ptrPayload (slot : PtrSlot) : PtrLookup :=
  { opIndex := slot.opIndex, slotId := slot.slotId, port := slot.port }

/-- The cells of generation `gen` represent the map `m`, and no cell is of a later
generation. -/
structure MapRep (gen mask : Nat) (map : Nat → PtrSlot) (m : BoundedMap Nat PtrLookup) : Prop where
  rep : Represents (ptrKey gen) (ptrPos mask) (mask + 1) ptrPayload map m
  gen_le : ∀ c, (map c).gen ≤ gen

theorem ptrPos_eq {mask : Nat} (h : PowMask mask) (key probe : Nat) :
    ptrPos mask key probe = (hashPtr key % (mask + 1) + probe) % (mask + 1) := by
  simp only [ptrPos, and_powMask h]

theorem ptrPos_fullCycle {mask : Nat} (h : PowMask mask) : FullCycle (ptrPos mask) (mask + 1) where
  lt := fun key probe => by
    rw [ptrPos_eq h]
    exact Nat.mod_lt _ (Nat.succ_pos _)
  reach := fun key c hc => by
    have hstart : hashPtr key % (mask + 1) < mask + 1 := Nat.mod_lt _ (Nat.succ_pos mask)
    by_cases hle : hashPtr key % (mask + 1) ≤ c
    · refine ⟨c - hashPtr key % (mask + 1), by omega, ?_⟩
      rw [ptrPos_eq h, Nat.add_sub_cancel' hle, Nat.mod_eq_of_lt hc]
    · -- the probe wraps around the end of the table
      refine ⟨c + (mask + 1) - hashPtr key % (mask + 1), by omega, ?_⟩
      rw [ptrPos_eq h, Nat.add_sub_cancel' (by omega), Nat.add_mod_right, Nat.mod_eq_of_lt hc]

section Spec
variable {gen mask : Nat} {map : Nat → PtrSlot} {m : BoundedMap Nat PtrLookup}

/-- A lookup reads the map.  The null address and a missing key give the empty answer. -/
theorem ptrMapLookup_eq (hmask : PowMask mask) (h : MapRep gen mask map m) (key : Nat) :
    ptrMapLookup map gen mask key = if key = 0 then {} else (m.get? key).getD {} := by
  unfold ptrMapLookup ptrFind
  by_cases hkey : key = 0
  · rw [if_pos hkey, if_pos hkey]
  · rcases h.rep.find_cases (ptrPos_fullCycle hmask) key with
      ⟨c, heq, hmem, -, hval⟩ | ⟨c, heq, hmem, -⟩ | ⟨heq, hmem, -⟩
    · rw [heq]
      simp only [BoundedMap.get?, if_pos hmem, Option.getD_some, ← hval]
      rfl
    · rw [heq]
      simp only [BoundedMap.get?, if_neg hmem, Option.getD_none]
    · rw [heq]
      simp only [BoundedMap.get?, if_neg hmem, Option.getD_none]

theorem gen_le_update (h : ∀ c, (map c).gen ≤ gen) (c : Nat) {slot : PtrSlot}
    (hslot : slot.gen ≤ gen) : ∀ c', (update map c slot c').gen ≤ gen := by
  intro c'
  by_cases hc : c' = c
  · subst hc
    rwa [update_self]
  · rw [update_of_ne hc]
    exact h c'

theorem ptrFind_hit (hmask : PowMask mask) {key c : Nat} (h : ptrFind map gen mask key = .hit c) :
    Holds (ptrKey gen) (mask + 1) map c key ∧ (map c).gen = gen ∧ (map c).key = key := by
  rcases find_cases map key (ptrPos_fullCycle hmask) with
    ⟨c', heq, hc⟩ | ⟨i, -, heq, -⟩ | ⟨heq, -⟩
  · obtain rfl : c' = c := by
      have hhit := heq.symm.trans h
      injection hhit
    have hkey := hc.2
    unfold ptrKey at hkey
    split at hkey
    · exact ⟨hc, ‹_›, Option.some.inj hkey⟩
    · cases hkey
  · exact absurd (heq.symm.trans h) (by simp)
  · exact absurd (heq.symm.trans h) (by simp)

/-- The cells after the slot id of an entry was set, if there is an entry. -/
def setSlot (map : Nat → PtrSlot) : Option Nat → Nat → Nat → PtrSlot
  | some c, s => update map c { map c with slotId := s }
  | none, _ => map

/-- What an insertion does.  It updates the entry of a key that the map has and keeps
its slot id, it adds a new key while there is room, and it does nothing when the table
is full.  The caller may still set the slot id. -/
theorem ptrMapInsert_spec (hmask : PowMask mask) (h : MapRep gen mask map m) (key : Nat)
    (opIndex : Option Nat) (port slotId : Nat) :
    ∃ map' r, ptrMapInsert map gen mask key opIndex port slotId = (map', r) ∧
      (r.wasAlias = true ↔ key ∈ m.keys ∧ (m.val key).opIndex ≠ opIndex) ∧
      (r.wasAlias = true → r.oldOp = (m.val key).opIndex ∧ r.oldPort = (m.val key).port ∧
        r.oldSlot = (m.val key).slotId) ∧
      MapRep gen mask map' (m.put (mask + 1) key
        { opIndex, port, slotId := if key ∈ m.keys then (m.val key).slotId else slotId }) ∧
      ∀ s, MapRep gen mask (setSlot map' r.slot s)
        (m.put (mask + 1) key { opIndex, port, slotId := s }) := by
  have hcyc := ptrPos_fullCycle hmask
  unfold ptrMapInsert
  rcases h.rep.find_cases hcyc key with
    ⟨c, heq, hmem, -, hval⟩ | ⟨c, heq, hmem, hroom⟩ | ⟨heq, hmem, hfull⟩
  · obtain ⟨hhol, hgen, rfl⟩ := ptrFind_hit hmask heq
    have heq' : ptrFind map gen mask (map c).key = .hit c := heq
    have hle : (map c).gen ≤ gen := h.gen_le c
    rw [heq', if_pos hmem, ← hval]
    refine ⟨_, _, rfl, by simp [hmem, ptrPayload], fun _ => ⟨rfl, rfl, rfl⟩, ⟨?_, ?_⟩, fun s => ?_⟩
    · exact h.rep.store_hit (s := { map c with opIndex, port }) hhol (by simp [ptrKey, hgen])
    · exact gen_le_update h.gen_le c hle
    · rw [setSlot, update_self, update_idem]
      exact ⟨h.rep.store_hit (s := { map c with opIndex, port, slotId := s }) hhol
        (by simp [ptrKey, hgen]), gen_le_update h.gen_le c hle⟩
  · have heq' : ptrFind map gen mask key = .free c := heq
    rw [heq', if_neg hmem]
    refine ⟨_, _, rfl, by simp [hmem], by simp, ⟨?_, ?_⟩, fun s => ?_⟩
    · exact h.rep.store_free hcyc heq (by simp [ptrKey])
    · exact gen_le_update h.gen_le c le_rfl
    · rw [setSlot, update_self, update_idem]
      exact ⟨h.rep.store_free hcyc heq (by simp [ptrKey]), gen_le_update h.gen_le c le_rfl⟩
  · have heq' : ptrFind map gen mask key = .full := heq
    have hput : ∀ v, m.put (mask + 1) key v = m := fun v => by
      rw [BoundedMap.put, if_neg hmem, if_neg (by omega)]
    rw [heq', hput]
    exact ⟨_, _, rfl, by simp [hmem], by simp, h, fun s => by rw [hput]; exact h⟩

end Spec
end Crucible
