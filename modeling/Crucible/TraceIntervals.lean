import Crucible.TraceWiring

/-! # Slot lifetimes and sizes

The slot table of a build.  Every op that names a slot lies in the slot's lifetime,
and the size of an internal slot is the largest storage among the outputs that name
it.
-/
namespace Crucible
open List
open OpenAddressing

/-- The slots taken so far cover the occurrences that name them. -/
structure SlotsOk (env : BuildEnv) (m : BoundedMap Nat PtrLookup) (i : Nat)
    (hist : List Occurrence) (st : BuildState) : Prop where
  rep : MapRep env.gen env.mask st.map m
  next_le : st.nextSlot ≤ env.slotCap
  entry_lt : ∀ p ∈ m.keys, (m.val p).slotId < st.nextSlot
  birth_le : ∀ s, s < st.nextSlot → (st.slots s).birthOp ≤ i
  death_le : ∀ s, s < st.nextSlot → (st.slots s).deathOp ≤ i
  covered : ∀ o ∈ hist, o.slot ≠ u32Max → o.slot < st.nextSlot ∧
    (st.slots o.slot).birthOp ≤ o.op ∧ o.op ≤ (st.slots o.slot).deathOp
  size_ge : ∀ o ∈ hist, o.isOutput = true → o.slot ≠ u32Max →
    storageNbytes o.tensor ≤ (st.slots o.slot).nbytes
  size_eq : ∀ s, s < st.nextSlot → (st.slots s).isExternal = false →
    ∃ o ∈ hist, o.isOutput = true ∧ o.slot = s ∧ storageNbytes o.tensor = (st.slots s).nbytes

section Steps
variable {env : BuildEnv} {m : BoundedMap Nat PtrLookup} {i : Nat}
  {hist : List Occurrence} {st st' : BuildState}

theorem touch_slots_self (st : BuildState) {s : Nat} (hs : s < env.slotCap)
    (f : SlotInfo → SlotInfo) : (st.touch env s f).slots s = f (st.slots s) := by
  unfold BuildState.touch
  rw [if_pos hs]
  simp

theorem touch_slots_of_ne {s r : Nat} (hr : r ≠ s) (f : SlotInfo → SlotInfo) :
    (st.touch env s f).slots r = st.slots r := by
  unfold BuildState.touch
  split
  · simp [hr]
  · rfl

theorem newSlot_slots_self (info : SlotInfo) : (st.newSlot info).slots st.nextSlot = info := by
  simp [BuildState.newSlot]

theorem newSlot_slots_of_ne {r : Nat} (hr : r ≠ st.nextSlot) (info : SlotInfo) :
    (st.newSlot info).slots r = st.slots r := by
  simp [BuildState.newSlot, hr]

theorem SlotsOk.entry_put (h : SlotsOk env m i hist st) {p next : Nat} {v : PtrLookup}
    (hnext : st.nextSlot ≤ next) (hv : v.slotId < next) :
    ∀ q ∈ (m.put (env.mask + 1) p v).keys, ((m.put (env.mask + 1) p v).val q).slotId < next := by
  intro q hq
  rw [BoundedMap.put_val hq]
  by_cases heq : q = p
  · rw [if_pos heq]
    exact hv
  · rw [if_neg heq]
    rw [BoundedMap.put_keys] at hq
    rcases BoundedMap.mem_addKey.mp hq with hold | ⟨hnew, -⟩
    · exact lt_of_lt_of_le (h.entry_lt q hold) hnext
    · exact absurd hnew heq

variable {m' : BoundedMap Nat PtrLookup} {o : Occurrence}

theorem SlotsOk.touch (h : SlotsOk env m i hist st) {slotId : Nat}
    {f : SlotInfo → SlotInfo} (ho : o.op = i)
    (hslot : o.slot = slotId) (hid : slotId < st.nextSlot)
    (hrep : MapRep env.gen env.mask st.map m')
    (hent : ∀ p ∈ m'.keys, (m'.val p).slotId < st.nextSlot)
    (hbir : ∀ info, (f info).birthOp = info.birthOp)
    (hdeath : ∀ info, (f info).deathOp = max info.deathOp i)
    (hext : ∀ info, (f info).isExternal = info.isExternal)
    (hsize : ∀ info, (f info).nbytes =
      if o.isOutput then max info.nbytes (storageNbytes o.tensor) else info.nbytes) :
    SlotsOk env m' i (hist ++ [o]) (st.touch env slotId f) := by
  have hcap : slotId < env.slotCap := hid.trans_le h.next_le
  have hself := touch_slots_self st hcap f
  have hgrow : ∀ r, (st.slots r).nbytes ≤ ((st.touch env slotId f).slots r).nbytes := by
    intro r
    by_cases hr : r = slotId
    · rw [hr, hself, hsize]
      split
      · exact le_max_left _ _
      · exact le_rfl
    · rw [touch_slots_of_ne hr]
  have hlife : ∀ r, ((st.touch env slotId f).slots r).birthOp = (st.slots r).birthOp ∧
      (st.slots r).deathOp ≤ ((st.touch env slotId f).slots r).deathOp := by
    intro r
    by_cases hr : r = slotId
    · rw [hr, hself, hbir, hdeath]
      exact ⟨rfl, le_max_left _ _⟩
    · rw [touch_slots_of_ne hr]
      exact ⟨rfl, le_rfl⟩
  refine ⟨by rw [touch_map]; exact hrep, by rw [touch_nextSlot]; exact h.next_le,
    by rw [touch_nextSlot]; exact hent, ?_, ?_, ?_, ?_, ?_⟩
  · intro s hs
    rw [touch_nextSlot] at hs
    rw [(hlife s).1]
    exact h.birth_le s hs
  · intro s hs
    rw [touch_nextSlot] at hs
    by_cases hr : s = slotId
    · rw [hr, hself, hdeath]
      exact Nat.max_le.mpr ⟨h.death_le _ hid, Nat.le_refl i⟩
    · rw [touch_slots_of_ne hr]
      exact h.death_le s hs
  · intro x hx hval
    rw [touch_nextSlot, (hlife x.slot).1]
    rcases mem_append.mp hx with hx | hx
    · obtain ⟨hlt, hb, hd⟩ := h.covered x hx hval
      exact ⟨hlt, hb, hd.trans (hlife x.slot).2⟩
    · rw [mem_singleton.mp hx, hslot, ho]
      refine ⟨hid, h.birth_le _ hid, ?_⟩
      rw [hself, hdeath]
      exact le_max_right _ _
  · intro x hx hout hval
    rcases mem_append.mp hx with hx | hx
    · exact le_trans (h.size_ge x hx hout hval) (hgrow x.slot)
    · obtain rfl := mem_singleton.mp hx
      rw [hslot, hself, hsize, if_pos hout]
      exact le_max_right _ _
  · intro s hs hint
    rw [touch_nextSlot] at hs
    by_cases hr : s = slotId
    · subst hr
      rw [hself, hext] at hint
      obtain ⟨x, hx, hxout, hxs, hxsize⟩ := h.size_eq s hs hint
      rw [hself, hsize]
      by_cases hgt : o.isOutput = true ∧ (st.slots s).nbytes < storageNbytes o.tensor
      · refine ⟨o, mem_append_right _ (mem_singleton_self o), hgt.1, hslot, ?_⟩
        rw [if_pos hgt.1]
        exact (max_eq_right hgt.2.le).symm
      · refine ⟨x, mem_append_left _ hx, hxout, hxs, hxsize.trans ?_⟩
        split
        · rename_i hout
          exact (max_eq_left (Nat.le_of_not_lt fun hlt => hgt ⟨hout, hlt⟩)).symm
        · rfl
    · rw [touch_slots_of_ne hr] at hint ⊢
      obtain ⟨x, hx, hrest⟩ := h.size_eq s hs hint
      exact ⟨x, mem_append_left _ hx, hrest⟩

theorem SlotsOk.newSlot (h : SlotsOk env m i hist st) {info : SlotInfo}
    {map' : Nat → PtrSlot} (ho : o.op = i)
    (hslot : o.slot = st.nextSlot) (hroom : st.nextSlot < env.slotCap)
    (hrep : MapRep env.gen env.mask map' m')
    (hent : ∀ p ∈ m'.keys, (m'.val p).slotId < st.nextSlot + 1)
    (hlife : info.birthOp ≤ i ∧ info.deathOp = i)
    (hsize : o.isOutput = true → info.nbytes = storageNbytes o.tensor)
    (hint : info.isExternal = false → o.isOutput = true) :
    SlotsOk env m' i (hist ++ [o]) { st.newSlot info with map := map' } := by
  have hself : ({ st.newSlot info with map := map' } : BuildState).slots st.nextSlot = info :=
    newSlot_slots_self info
  have hoth : ∀ r, r ≠ st.nextSlot →
      ({ st.newSlot info with map := map' } : BuildState).slots r = st.slots r :=
    fun r hr => newSlot_slots_of_ne hr info
  have hnext : ({ st.newSlot info with map := map' } : BuildState).nextSlot = st.nextSlot + 1 := rfl
  refine ⟨hrep, hroom, hent, ?_, ?_, ?_, ?_, ?_⟩
  · intro s hs
    by_cases hr : s = st.nextSlot
    · rw [hr, hself]
      exact hlife.1
    · rw [hoth s hr]
      exact h.birth_le s (by omega)
  · intro s hs
    by_cases hr : s = st.nextSlot
    · rw [hr, hself]
      exact le_of_eq hlife.2
    · rw [hoth s hr]
      exact h.death_le s (by omega)
  · intro x hx hval
    rcases mem_append.mp hx with hx | hx
    · obtain ⟨hlt, hb, hd⟩ := h.covered x hx hval
      rw [hoth _ hlt.ne]
      exact ⟨Nat.lt_succ_of_lt hlt, hb, hd⟩
    · rw [mem_singleton.mp hx, hslot, hself, ho]
      exact ⟨lt_add_one _, hlife.1, le_of_eq hlife.2.symm⟩
  · intro x hx hout hval
    rcases mem_append.mp hx with hx | hx
    · rw [hoth _ (ne_of_lt (h.covered x hx hval).1)]
      exact h.size_ge x hx hout hval
    · obtain rfl := mem_singleton.mp hx
      rw [hslot, hself, hsize hout]
  · intro s hs hsint
    by_cases hr : s = st.nextSlot
    · rw [hr, hself] at hsint ⊢
      exact ⟨o, mem_append_right _ (mem_singleton_self o), hint hsint, hslot,
        (hsize (hint hsint)).symm⟩
    · rw [hoth s hr] at hsint ⊢
      obtain ⟨x, hx, hrest⟩ := h.size_eq s (by omega) hsint
      exact ⟨x, mem_append_left _ hx, hrest⟩

theorem SlotsOk.noSlot (h : SlotsOk env m i hist st)
    {map' : Nat → PtrSlot} (hslot : o.slot = u32Max)
    (hrep : MapRep env.gen env.mask map' m')
    (hent : ∀ p ∈ m'.keys, (m'.val p).slotId < st.nextSlot) :
    SlotsOk env m' i (hist ++ [o]) { st with map := map' } := by
  refine ⟨hrep, h.next_le, hent, h.birth_le, h.death_le,
    forall_mem_append.mpr ⟨h.covered, by simp [hslot]⟩,
    forall_mem_append.mpr ⟨h.size_ge, by simp [hslot]⟩, fun s hs hint => ?_⟩
  obtain ⟨x, hx, hrest⟩ := h.size_eq s hs hint
  exact ⟨x, mem_append_left _ hx, hrest⟩

theorem kept_slots (hmask : PowMask env.mask) (hpos : 0 < env.slotCap) :
    Kept env fun i _ hist st => ∃ m, SlotsOk env m i hist st where
  input := by
    rintro i j tensor hist st st' producer slot ⟨m, hs⟩ h
    rcases resolveInput_cases hmask hs.rep h with
      ⟨src, -, hmem, -, rfl, rfl, -, rfl⟩ | ⟨-, -, hroom, rfl, rfl, map', hrep, rfl⟩ |
      ⟨rfl, rfl, rfl, -⟩
    · have hs' : SlotsOk env m i hist
          { st with edges := st.edges ++ [flowEdge (m.val tensor.dataPtr) src i j] } :=
        { hs with rep := hs.rep }
      exact ⟨m, hs'.touch rfl rfl (hs.entry_lt _ hmem) hs.rep hs.entry_lt (fun _ => rfl)
        (fun _ => rfl) (fun _ => rfl) (fun _ => rfl)⟩
    · refine ⟨_, hs.newSlot rfl rfl hroom hrep (hs.entry_put (Nat.le_succ _) ?_)
        ⟨zero_le, rfl⟩ (fun h => by cases h) (fun h => by cases h)⟩
      split
      · rename_i hmem
        exact Nat.lt_succ_of_lt (hs.entry_lt _ hmem)
      · exact lt_add_one _
    · exact ⟨m, hs.noSlot rfl hs.rep hs.entry_lt⟩
  toOutputs := fun _ _ _ h => h
  output := by
    rintro i j tensor hist st st' slot ⟨m, hs⟩ h
    rcases resolveOutput_cases hmask hs.rep h with
      ⟨-, rfl, rfl⟩ | ⟨-, hmem, -, rfl, -, map', hrep, rfl⟩ |
      ⟨-, -, hroom, rfl, map', hrep, rfl⟩ | ⟨-, -, hfull, rfl, map', hrep, rfl⟩
    · exact ⟨m, hs.noSlot rfl hs.rep hs.entry_lt⟩
    · have hid := hs.entry_lt _ hmem
      have hent := hs.entry_put (p := tensor.dataPtr)
        (v := { opIndex := some i, port := portOf j, slotId := (m.val tensor.dataPtr).slotId })
        le_rfl hid
      have hs' : SlotsOk env _ i hist
          { st with map := map', edges := st.edges ++ aliasEdges (m.val tensor.dataPtr) i j } :=
        { hs with rep := hrep, entry_lt := hent }
      exact ⟨_, hs'.touch rfl rfl hid hrep hent (fun _ => rfl) (fun _ => rfl) (fun _ => rfl)
        (fun _ => rfl)⟩
    · exact ⟨_, hs.newSlot rfl rfl hroom hrep (hs.entry_put (Nat.le_succ _) (lt_add_one _))
        ⟨le_rfl, rfl⟩ (fun _ => rfl) (fun _ => rfl)⟩
    · refine ⟨_, hs.noSlot rfl hrep (hs.entry_put le_rfl ?_)⟩
      -- without a slot left, a new entry keeps the placeholder 0, which is a taken slot
      split
      · rename_i hmem
        exact hs.entry_lt _ hmem
      · exact hpos.trans_le hfull
  nextOp := fun i _ _ ⟨m, hs⟩ =>
    ⟨m, { hs with
      birth_le := fun s h => Nat.le_succ_of_le (hs.birth_le s h)
      death_le := fun s h => Nat.le_succ_of_le (hs.death_le s h) }⟩

end Steps

/-- **The slot table of a finished build**: it lists the slots taken, in order. -/
theorem BuildRun.slots {env : BuildEnv} {ops : List RecordedOp} {accesses : List Access}
    {trace : BuiltTrace} {start st : BuildState} (hrun : BuildRun env ops accesses trace start st) :
    ∃ m, SlotsOk env m ops.length trace.occurrences st ∧
      trace.slots = (range st.nextSlot).map fun s => (st.slots s).toTensorSlot s := by
  have hstart : SlotsOk env ⟨[], fun _ => {}⟩ 0 [] start := by
    have hzero := hrun.nextSlot_zero
    exact ⟨hrun.rep, by omega, by simp, by omega, by omega, by simp, by simp, by omega⟩
  obtain ⟨m, hs⟩ := hrun.induct _ (kept_slots hrun.mask hrun.slotCap_pos) ⟨_, hstart⟩
  refine ⟨m, hs, ?_⟩
  rw [hrun.slots_eq, min_eq_left hs.next_le]
end Crucible
