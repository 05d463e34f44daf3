import Crucible.TraceGraph

/-! # Slot identity

A slot stands for a storage, so two occurrences should share a slot exactly when
they name the same address.  The builder gives an occurrence a new slot also when an input
finds an entry that nobody wrote, and when an op writes one address twice.  `FindsSlot` says
which accesses get the slot of their address.
-/
namespace Crucible
open List
open OpenAddressing BoundedMap

/-! ### Addresses in the order of their first use -/

/-- The non-null addresses in the order in which the trace first names them. -/
def firstSeen (accesses : List Access) : List Nat :=
  accesses.foldl (fun seen a => if a.addr = 0 ∨ a.addr ∈ seen then seen else seen ++ [a.addr]) []

theorem firstSeen_append (accesses : List Access) (a : Access) :
    firstSeen (accesses ++ [a]) = if a.addr = 0 ∨ a.addr ∈ firstSeen accesses then
      firstSeen accesses else firstSeen accesses ++ [a.addr] := by
  rw [firstSeen, foldl_append]
  rfl

variable {a : Access} {accesses : List Access}

theorem firstSeen_known (h : a.addr = 0 ∨ a.addr ∈ firstSeen accesses) :
    firstSeen (accesses ++ [a]) = firstSeen accesses := by
  rw [firstSeen_append, if_pos h]

theorem firstSeen_new (hne : a.addr ≠ 0) (h : a.addr ∉ firstSeen accesses) :
    firstSeen (accesses ++ [a]) = firstSeen accesses ++ [a.addr] := by
  rw [firstSeen_append, if_neg (not_or.mpr ⟨hne, h⟩)]

theorem mem_firstSeen {p : Nat} : p ∈ firstSeen accesses ↔ p ≠ 0 ∧ ∃ a ∈ accesses, a.addr = p := by
  induction accesses using reverseRecOn with
  | nil => simp [firstSeen]
  | append_singleton as a ih =>
    by_cases hzero : a.addr = 0
    · rw [firstSeen_known (.inl hzero)]
      grind
    by_cases hin : a.addr ∈ firstSeen as
    · rw [firstSeen_known (.inr hin)]
      grind
    · rw [firstSeen_new hzero hin]
      grind

/-! ### What an access needs -/

/-- The last writer with which an access does not share a slot: an output of an op does
not share with an earlier output of the op, an input not with an unwritten entry. -/
def Access.clash (a : Access) : Option Nat := if a.isOutput then some a.op else none

/-- After the accesses `pre`, the access gets the slot of its address.  A new address
needs a free slot.  A known address needs a cell of the pointer map, which has one for
each of the first addresses only, and a writer that does not clash. -/
def FindsSlot (env : BuildEnv) (pre : List Access) (a : Access) : Prop :=
  if a.addr ∈ firstSeen pre then
    a.addr ∈ (firstSeen pre).take (env.mask + 1) ∧ lastWriter pre a.addr ≠ a.clash
  else (firstSeen pre).length < env.slotCap

instance (env : BuildEnv) (pre : List Access) (a : Access) : Decidable (FindsSlot env pre a) := by
  unfold FindsSlot
  infer_instance

/-- Every non-null access of the trace gets the slot of its address. -/
def AllFindSlots (env : BuildEnv) (accesses : List Access) : Prop :=
  ∀ n, n < accesses.length → ∀ a ∈ accesses[n]?, a.addr ≠ 0 → FindsSlot env (accesses.take n) a

instance (env : BuildEnv) (accesses : List Access) : Decidable (AllFindSlots env accesses) :=
  inferInstanceAs (Decidable (∀ n, n < accesses.length → ∀ a ∈ accesses[n]?, _ → _))

theorem allFindSlots_append {env : BuildEnv} : AllFindSlots env (accesses ++ [a]) ↔
      AllFindSlots env accesses ∧ (a.addr ≠ 0 → FindsSlot env accesses a) := by
  rw [AllFindSlots, length_append, length_singleton, Nat.forall_lt_succ_right]
  refine and_congr (forall₂_congr fun n hn => ?_) ?_
  · rw [getElem?_append_left hn, take_append_of_le_length hn.le]
  · rw [getElem?_concat_length, take_left]
    simp only [Option.mem_some_iff, forall_eq']

/-! ### The slots of a run -/

/-- Slots identify storages: every non-null occurrence has one, and two of them share it
exactly when they name one address. -/
structure SlotsIdentify (occurrences : List Occurrence) : Prop where
  valid : ∀ o ∈ occurrences, o.tensor.dataPtr ≠ 0 → o.slot ≠ u32Max
  same_iff : ∀ o ∈ occurrences, ∀ o' ∈ occurrences, o.tensor.dataPtr ≠ 0 →
    o'.tensor.dataPtr ≠ 0 → (o.slot = o'.slot ↔ o.tensor.dataPtr = o'.tensor.dataPtr)

theorem SlotsIdentify.sublist {xs ys : List Occurrence} (h : SlotsIdentify ys) (hsub : xs ⊆ ys) :
    SlotsIdentify xs :=
  ⟨fun o ho => h.valid o (hsub ho), fun o ho o' ho' => h.same_iff o (hsub ho) o' (hsub ho')⟩

/-- The map and the slots as they are while every access found the slot of its address:
the slot of an address is its place in the order of first use. -/
structure Identified (env : BuildEnv) (m : BoundedMap Nat PtrLookup) (hist : List Occurrence)
    (st : BuildState) : Prop where
  rep : MapRep env.gen env.mask st.map m
  next_eq : st.nextSlot = (firstSeen (accessed hist)).length
  keys_eq : m.keys = (firstSeen (accessed hist)).take (env.mask + 1)
  entry_eq : ∀ p ∈ m.keys, (m.val p).slotId = (firstSeen (accessed hist)).idxOf p
  slot_eq : ∀ o ∈ hist, o.tensor.dataPtr ≠ 0 →
    o.slot = (firstSeen (accessed hist)).idxOf o.tensor.dataPtr

/-- What one access does to map, counter and slot.  `last` is the last writer of its
address. -/
inductive SlotOutcome (env : BuildEnv) (m m' : BoundedMap Nat PtrLookup) (last : Option Nat)
    (a : Access) (next next' slot : Nat) : Prop
  /-- The null address. -/
  | null (hzero : a.addr = 0) (hm : m' = m) (hnext : next' = next)
  /-- The slot of an entry. -/
  | known (hne : a.addr ≠ 0) (hmem : a.addr ∈ m.keys) (hlast : last ≠ a.clash)
      (hslot : slot = (m.val a.addr).slotId) (hkeys : m'.keys = m.keys)
      (hids : ∀ q ∈ m.keys, (m'.val q).slotId = (m.val q).slotId) (hnext : next' = next)
  /-- A new slot. -/
  | fresh (hne : a.addr ≠ 0) (hlast : a.addr ∈ m.keys → last = a.clash) (hroom : next < env.slotCap)
      (hslot : slot = next) (hkeys : m'.keys = addKey (env.mask + 1) m.keys a.addr)
      (hid : a.addr ∉ m.keys → a.addr ∈ m'.keys → (m'.val a.addr).slotId = next)
      (hids : ∀ q ∈ m.keys, q ≠ a.addr → (m'.val q).slotId = (m.val q).slotId)
      (hnext : next' = next + 1)
  /-- No slot is left. -/
  | out (hne : a.addr ≠ 0) (hlast : a.addr ∈ m.keys → last = a.clash)
      (hfull : env.slotCap ≤ next) (hslot : slot = u32Max)

section Outcome
variable {env : BuildEnv} {m : BoundedMap Nat PtrLookup} {i j : Nat} {tensor : TensorMeta}
  {last : Option Nat} {st st' : BuildState}

theorem put_val_old {cap p q : Nat} {v : PtrLookup} (hq : q ∈ m.keys) :
    (m.put cap p v).val q = if q = p then v else m.val q :=
  put_val (by rw [put_keys]; exact mem_addKey.mpr (.inl hq))

theorem resolveInput_outcome (hmask : PowMask env.mask) (hrep : MapRep env.gen env.mask st.map m)
    (hlast : tensor.dataPtr ∈ m.keys → (m.val tensor.dataPtr).opIndex = last)
    {producer : Option Nat} {slot : Nat}
    (h : resolveInput env i j tensor st = some (st', producer, slot)) :
    ∃ m', MapRep env.gen env.mask st'.map m' ∧
      SlotOutcome env m m' last ⟨i, false, tensor.dataPtr⟩ st.nextSlot st'.nextSlot slot := by
  rcases resolveInput_cases hmask hrep h with
    ⟨src, hne, hmem, hsrc, -, rfl, -, rfl⟩ | ⟨hne, hnone, hroom, -, rfl, map', hrep', rfl⟩ |
    ⟨-, rfl, rfl, hwhy⟩
  · refine ⟨m, by rw [touch_map]; exact hrep, .known hne hmem ?_ rfl rfl (fun _ _ => rfl)
      (touch_nextSlot ..)⟩
    rw [← hlast hmem, hsrc]
    exact Option.some_ne_none src
  · refine ⟨_, hrep', .fresh hne (fun hmem => (hlast hmem).symm.trans (hnone hmem)) hroom rfl
      (put_keys ..) (fun hnot hmem => ?_) (fun q hq hqne => ?_) rfl⟩
    · rw [put_val hmem, if_pos rfl, if_neg hnot]
    · rw [put_val_old hq, if_neg hqne]
  · by_cases hzero : tensor.dataPtr = 0
    · exact ⟨m, hrep, .null hzero rfl rfl⟩
    · obtain ⟨hnone, hfull⟩ := hwhy.resolve_left hzero
      exact ⟨m, hrep, .out hzero (fun hmem => (hlast hmem).symm.trans (hnone hmem)) hfull rfl⟩

theorem resolveOutput_outcome (hmask : PowMask env.mask) (hrep : MapRep env.gen env.mask st.map m)
    (hlast : tensor.dataPtr ∈ m.keys → (m.val tensor.dataPtr).opIndex = last) {slot : Nat}
    (h : resolveOutput env i j tensor st = some (st', slot)) :
    ∃ m', MapRep env.gen env.mask st'.map m' ∧
      SlotOutcome env m m' last ⟨i, true, tensor.dataPtr⟩ st.nextSlot st'.nextSlot slot := by
  rcases resolveOutput_cases hmask hrep h with
    ⟨hzero, rfl, rfl⟩ | ⟨hne, hmem, hoth, rfl, -, map', hrep', rfl⟩ |
    ⟨hne, hsame, hroom, rfl, map', hrep', rfl⟩ | ⟨hne, hsame, hfull, rfl, map', hrep', rfl⟩
  · exact ⟨m, hrep, .null hzero rfl rfl⟩
  · refine ⟨_, by rw [touch_map]; exact hrep', .known hne hmem (fun heq => hoth ?_) rfl ?_
      (fun q hq => ?_) (touch_nextSlot ..)⟩
    · exact (hlast hmem).trans heq
    · rw [put_keys, addKey, if_pos hmem]
    · rw [put_val_old hq]
      split_ifs with heq
      · rw [heq]
      · rfl
  · refine ⟨_, hrep', .fresh hne (fun hmem => (hlast hmem).symm.trans (hsame hmem)) hroom rfl
      (put_keys ..) (fun _ hmem => ?_) (fun q hq hqne => ?_) rfl⟩
    · rw [put_val hmem, if_pos rfl]
    · rw [put_val_old hq, if_neg hqne]
  · exact ⟨_, hrep', .out hne (fun hmem => (hlast hmem).symm.trans (hsame hmem)) hfull rfl⟩

end Outcome

section Step
variable {env : BuildEnv} {m m' : BoundedMap Nat PtrLookup} {hist : List Occurrence}
  {st st' : BuildState} {o : Occurrence}

variable (h : Identified env m hist st)
include h

theorem Identified.seen {p : Nat} (hp : p ∈ m.keys) : p ∈ firstSeen (accessed hist) :=
  mem_of_mem_take (h.keys_eq ▸ hp)

theorem Identified.finds
    (hout : SlotOutcome env m m' (lastWriter (accessed hist) o.access.addr) o.access st.nextSlot
      st'.nextSlot o.slot)
    (hgood : SlotsIdentify (hist ++ [o])) (hne : o.access.addr ≠ 0) :
    FindsSlot env (accessed hist) o.access := by
  have homem : o ∈ hist ++ [o] := mem_append_right _ (mem_singleton_self o)
  unfold FindsSlot
  cases hout with
  | null hzero => exact absurd hzero hne
  | known _ hmem hlast =>
    rw [if_pos (h.seen hmem), ← h.keys_eq]
    exact ⟨hmem, hlast⟩
  | fresh _ hlast hroom hslot =>
    split
    · -- an earlier occurrence of the address has an older slot
      rename_i hin
      obtain ⟨-, x, hx, hxa⟩ := mem_firstSeen.mp hin
      obtain ⟨o', ho', rfl⟩ := mem_map.mp hx
      change o'.tensor.dataPtr = o.tensor.dataPtr at hxa
      have hsame := (hgood.same_iff o homem o' (mem_append_left _ ho') hne
        (hxa ▸ hne)).mpr hxa.symm
      have hold := h.slot_eq o' ho' (hxa ▸ hne)
      rw [hxa] at hold
      have hlt := idxOf_lt_length_of_mem hin
      rw [← h.next_eq] at hlt
      change (firstSeen (accessed hist)).idxOf o.tensor.dataPtr < st.nextSlot at hlt
      omega
    · rw [← h.next_eq]
      exact hroom
  | out _ _ _ hslot => exact absurd hslot (hgood.valid o homem hne)

theorem Identified.unseen {a : Access} (hfind : FindsSlot env (accessed hist) a)
    (hlast : a.addr ∈ m.keys → lastWriter (accessed hist) a.addr = a.clash) :
    a.addr ∉ firstSeen (accessed hist) ∧ st.nextSlot < env.slotCap := by
  rw [FindsSlot, ← h.keys_eq, ← h.next_eq] at hfind
  split_ifs at hfind with hin
  · exact absurd (hlast hfind.1) hfind.2
  · exact ⟨hin, hfind⟩

variable (hrep : MapRep env.gen env.mask st'.map m')
include hrep

theorem Identified.same (hnext : st'.nextSlot = st.nextSlot)
    (hkeys : m'.keys = m.keys) (hids : ∀ q ∈ m.keys, (m'.val q).slotId = (m.val q).slotId)
    (hseen : o.access.addr = 0 ∨ o.access.addr ∈ firstSeen (accessed hist))
    (hslot : o.tensor.dataPtr ≠ 0 → o.slot = (firstSeen (accessed hist)).idxOf o.tensor.dataPtr) :
    Identified env m' (hist ++ [o]) st' := by
  have hfir : firstSeen (accessed (hist ++ [o])) = firstSeen (accessed hist) := by
    rw [accessed_append, firstSeen_known hseen]
  refine ⟨hrep, ?_, ?_, ?_, ?_⟩
  · rw [hnext, hfir, h.next_eq]
  · rw [hkeys, hfir, h.keys_eq]
  · intro p hp
    rw [hkeys] at hp
    rw [hids p hp, hfir, h.entry_eq p hp]
  · rw [hfir]
    exact forall_mem_append.mpr ⟨h.slot_eq, forall_mem_singleton.mpr hslot⟩

theorem Identified.new (hnext : st'.nextSlot = st.nextSlot + 1)
    (hkeys : m'.keys = addKey (env.mask + 1) m.keys o.access.addr)
    (hid : o.access.addr ∈ m'.keys → (m'.val o.access.addr).slotId = st.nextSlot)
    (hids : ∀ q ∈ m.keys, q ≠ o.access.addr → (m'.val q).slotId = (m.val q).slotId)
    (hne : o.access.addr ≠ 0) (hnew : o.access.addr ∉ firstSeen (accessed hist))
    (hslot : o.slot = st.nextSlot) : Identified env m' (hist ++ [o]) st' := by
  have hfir : firstSeen (accessed (hist ++ [o])) =
      firstSeen (accessed hist) ++ [o.access.addr] := by
    rw [accessed_append, firstSeen_new hne hnew]
  have hlast : (firstSeen (accessed hist) ++ [o.access.addr]).idxOf o.access.addr =
      st.nextSlot := by
    rw [idxOf_append_of_notMem hnew, h.next_eq]
    simp
  have hnot : o.access.addr ∉ m.keys := fun hin => hnew (h.seen hin)
  refine ⟨hrep, ?_, ?_, ?_, ?_⟩
  · rw [hnext, hfir, h.next_eq, length_append, length_singleton]
  · rw [hkeys, hfir, addKey, if_neg hnot, h.keys_eq, take_append, length_take]
    by_cases hroom : (firstSeen (accessed hist)).length < env.mask + 1
    · rw [if_pos (by omega), take_of_length_le (l := [_]) (by simp; omega)]
    · rw [if_neg (by omega), Nat.sub_eq_zero_of_le (by omega), take_zero, append_nil]
  · intro p hp
    rw [hfir]
    rw [hkeys] at hp
    rcases mem_addKey.mp hp with hold | ⟨rfl, -⟩
    · rw [hids p hold fun heq => hnot (heq ▸ hold), h.entry_eq p hold,
        idxOf_append_of_mem (h.seen hold)]
    · rw [hid (hkeys ▸ hp), hlast]
  · rw [hfir]
    refine forall_mem_append.mpr ⟨fun x hx hxne => ?_,
      forall_mem_singleton.mpr fun _ => hslot.trans hlast.symm⟩
    rw [h.slot_eq x hx hxne, idxOf_append_of_mem]
    exact mem_firstSeen.mpr ⟨hxne, x.access, mem_map_of_mem hx, rfl⟩

theorem Identified.step
    (hout : SlotOutcome env m m' (lastWriter (accessed hist) o.access.addr) o.access st.nextSlot
      st'.nextSlot o.slot)
    (hfind : o.access.addr ≠ 0 → FindsSlot env (accessed hist) o.access) :
    Identified env m' (hist ++ [o]) st' := by
  cases hout with
  | null hzero hm hnext =>
    subst hm
    exact h.same hrep hnext rfl (fun _ _ => rfl) (.inl hzero) fun hne => absurd hzero hne
  | known hne hmem _ hslot hkeys hids hnext =>
    exact h.same hrep hnext hkeys hids (.inr (h.seen hmem)) fun _ =>
      hslot.trans (h.entry_eq _ hmem)
  | fresh hne hlast hroom hslot hkeys hid hids hnext =>
    obtain ⟨hnew, -⟩ := h.unseen (hfind hne) hlast
    exact h.new hrep hnext hkeys (hid fun hin => hnew (h.seen hin)) hids hne hnew hslot
  | out hne hlast hfull =>
    exact absurd (h.unseen (hfind hne) hlast).2 hfull.not_gt

end Step

theorem Identified.identify {env : BuildEnv} {m : BoundedMap Nat PtrLookup}
    {hist : List Occurrence} {st : BuildState} (h : Identified env m hist st)
    (hcap : st.nextSlot ≤ u32Max) : SlotsIdentify hist := by
  have hseen : ∀ o ∈ hist, o.tensor.dataPtr ≠ 0 →
      o.tensor.dataPtr ∈ firstSeen (accessed hist) := fun o ho hne =>
    mem_firstSeen.mpr ⟨hne, o.access, mem_map_of_mem ho, rfl⟩
  refine ⟨fun o ho hne => ?_, fun o ho o' ho' hne hne' => ?_⟩
  · have hlt := idxOf_lt_length_of_mem (hseen o ho hne)
    rw [h.slot_eq o ho hne]
    rw [← h.next_eq] at hlt
    omega
  · rw [h.slot_eq o ho hne, h.slot_eq o' ho' hne', idxOf_inj (hseen o ho hne)]

/-- The invariant of the loop: the accesses find their slots exactly as long as slots
identify storages. -/
structure SlotRun (env : BuildEnv) (i : Nat) (outputs : Bool) (hist : List Occurrence)
    (st : BuildState) : Prop where
  wired : ∃ m, Wired env m i outputs hist st
  identified : AllFindSlots env (accessed hist) → ∃ m, Identified env m hist st
  finds : SlotsIdentify hist → AllFindSlots env (accessed hist)

section Run
variable {env : BuildEnv} {i : Nat} {outputs : Bool} {hist : List Occurrence}
  {st st' : BuildState} {o : Occurrence}

theorem SlotRun.writer (h : SlotRun env i outputs hist st) {m : BoundedMap Nat PtrLookup}
    (hrep : MapRep env.gen env.mask st.map m) {p : Nat} (hp : p ∈ m.keys) :
    (m.val p).opIndex = lastWriter (accessed hist) p := by
  obtain ⟨m₂, hw⟩ := h.wired
  obtain ⟨hp₂, hval⟩ := hrep.rep.agree hw.rep.rep hp
  rw [← hval, hw.writer_eq p hp₂]

theorem SlotRun.step (h : SlotRun env i outputs hist st)
    (hwir : ∃ m, Wired env m i outputs (hist ++ [o]) st')
    (hout : ∀ m, MapRep env.gen env.mask st.map m → ∃ m', MapRep env.gen env.mask st'.map m' ∧
        SlotOutcome env m m' (lastWriter (accessed hist) o.access.addr) o.access st.nextSlot
          st'.nextSlot o.slot) :
    SlotRun env i outputs (hist ++ [o]) st' where
  wired := hwir
  identified := fun hall => by
    rw [accessed_append, allFindSlots_append] at hall
    obtain ⟨m, hid⟩ := h.identified hall.1
    obtain ⟨m', hrep', hstep⟩ := hout m hid.rep
    exact ⟨m', hid.step hrep' hstep hall.2⟩
  finds := fun hgood => by
    have hall := h.finds (hgood.sublist (subset_append_left _ _))
    obtain ⟨m, hid⟩ := h.identified hall
    obtain ⟨m', -, hstep⟩ := hout m hid.rep
    rw [accessed_append, allFindSlots_append]
    exact ⟨hall, hid.finds hstep hgood⟩

theorem kept_slotRun (hmask : PowMask env.mask) : Kept env (SlotRun env) where
  input := fun i j tensor hist st st' producer slot hrun h => by
    refine hrun.step ((kept_wired hmask).input _ _ _ _ _ _ _ _ hrun.wired h) fun m hrep => ?_
    exact resolveInput_outcome hmask hrep (fun hmem => hrun.writer hrep hmem) h
  toOutputs := fun _ _ _ hrun =>
    ⟨(kept_wired hmask).toOutputs _ _ _ hrun.wired, hrun.identified, hrun.finds⟩
  output := fun i j tensor hist st st' slot hrun h => by
    refine hrun.step ((kept_wired hmask).output _ _ _ _ _ _ _ hrun.wired h) fun m hrep => ?_
    exact resolveOutput_outcome hmask hrep (fun hmem => hrun.writer hrep hmem) h
  nextOp := fun _ _ _ hrun =>
    ⟨(kept_wired hmask).nextOp _ _ _ hrun.wired, hrun.identified, hrun.finds⟩

end Run

/-- **When slots identify storages.**  In every build that succeeds, every occurrence of
a non-null address gets a slot, and two occurrences the same slot exactly when they name
the same address, if and only if every access finds its slot: a new address while a slot
is left, and a known one through a cell of the map and a writer that does not clash. -/
theorem slotIdentity_iff {sc sc' : Scratch} {log : Nat → TensorMeta} {ops : List RecordedOp}
    {trace : BuiltTrace} (hsc : sc.Reachable)
    (h : buildTraceFrom sc log ops = .built sc' trace) :
    SlotsIdentify trace.occurrences ↔ AllFindSlots (envOf sc ops) (accessesOf log ops) := by
  obtain ⟨start, st, hrun⟩ := built_run hsc h
  have haccess : accessed trace.occurrences = accessesOf log ops := hrun.accesses_eq
  have hstart : SlotRun (envOf sc ops) 0 false [] start := by
    have hzero := hrun.nextSlot_zero
    refine ⟨⟨_, hrun.wired_start⟩, fun _ => ⟨_, hrun.rep, hzero, rfl, ?_, ?_⟩, fun _ => ?_⟩
    · simp
    · simp
    · simp [AllFindSlots, accessed]
  have hend := hrun.induct _ (kept_slotRun hrun.mask) hstart
  rw [← haccess]
  refine ⟨hend.finds, fun hall => ?_⟩
  obtain ⟨m, hid⟩ := hend.identified hall
  obtain ⟨_, hslots, -⟩ := hrun.slots
  exact hid.identify (hslots.next_le.trans hrun.slotCap_le)

theorem slotIdentity_chain : ∃ sc' trace,
    buildTraceFrom {} (fun _ => { dataPtr := 256 }) chainOps = .built sc' trace ∧
      SlotsIdentify trace.occurrences := by
  obtain ⟨sc', trace, h⟩ := buildTraceFrom_total {} (fun _ => { dataPtr := 256 })
    (show scanTrace chainOps = .ok ⟨2, some 0, 1, 1⟩ from rfl) (by decide) (by decide)
  exact ⟨sc', trace, h, (slotIdentity_iff .init h).mpr (by decide)⟩

def sharedInputOps : List RecordedOp :=
  [{ entry := { schemaHash := 1, shapeHash := 1, numInputs := 1 }, metaIndex := some 0 },
   { entry := { schemaHash := 2, shapeHash := 1, numInputs := 1 }, metaIndex := some 1 }]

/-- An external tensor that two ops read gets two slots. -/
theorem slotIdentity_sharedInput : ∃ sc' trace,
    buildTraceFrom {} (fun _ => { dataPtr := 256 }) sharedInputOps = .built sc' trace ∧
      (trace.occurrences.map fun o => (o.op, o.tensor.dataPtr, o.slot)) =
        [(0, 256, 0), (1, 256, 1)] ∧
      ¬ SlotsIdentify trace.occurrences := by
  refine ⟨_, _, rfl, rfl, fun hgood => ?_⟩
  have hsame := (hgood.same_iff _ mem_cons_self _
    (mem_cons_of_mem _ mem_cons_self) (by decide) (by decide)).mpr rfl
  exact absurd hsame (by decide)

end Crucible
