import Crucible.PtrMap

/-! # Runs of the builder

Two things that every result about `build_trace_from` uses.  The scratch state: in
every state that builds can leave behind, a new build starts with an empty pointer
map of power-of-two capacity (`openScratch_open`).  And the shape of a run: the
loops over inputs and outputs handle the tensor occurrences of the trace one by one,
so an invariant that each occurrence keeps holds at the end (`Kept.buildOps`).
-/
namespace Crucible
open List Option
open OpenAddressing

/-! ### The scratch state -/

/-- The scratch states that builds leave behind. -/
inductive Scratch.Reachable : Scratch → Prop where
  | init : Scratch.Reachable {}
  | built {sc sc' : Scratch} {log : Nat → TensorMeta} {ops : List RecordedOp}
      {trace : BuiltTrace} (h : Scratch.Reachable sc)
      (hbuild : buildTraceFrom sc log ops = .built sc' trace) : Scratch.Reachable sc'

/-- The invariant of the scratch state: no cell is of a later generation. -/
structure Scratch.Valid (sc : Scratch) : Prop where
  cap_pow : sc.mapCap = 0 ∨ ∃ k, sc.mapCap = 2 ^ k
  gen_le : ∀ c, (sc.map c).gen ≤ sc.mapGen
  gen_lt : sc.mapGen < 2 ^ 8
  slot_le : sc.slotCapMax ≤ u32Max

/-- The scratch state inside a build. -/
structure Scratch.Open (sc : Scratch) : Prop where
  cap_pow : ∃ k, sc.mapCap = 2 ^ k
  gen_le : ∀ c, (sc.map c).gen ≤ sc.mapGen
  gen_lt : sc.mapGen < 2 ^ 8
  slot_le : sc.slotCapMax ≤ u32Max
  slot_pos : 0 < sc.slotCapMax

theorem bitCeil_pow (x : Nat) : ∃ k, bitCeil x = 2 ^ k := by
  unfold bitCeil
  split
  · exact ⟨0, rfl⟩
  · exact ⟨_, rfl⟩

theorem neededMap_pow (outs : Nat) : ∃ k, neededMap outs = 2 ^ k := by
  unfold neededMap
  dsimp only
  split
  · exact ⟨30, rfl⟩
  · exact bitCeil_pow _

theorem neededMap_pos (outs : Nat) : 0 < neededMap outs := by
  obtain ⟨k, hk⟩ := neededMap_pow outs
  rw [hk]
  exact Nat.two_pow_pos k

theorem ensureScratchBuffers_map (sc : Scratch) (ins outs : Nat) :
    ((ensureScratchBuffers sc ins outs).mapCap = neededMap outs ∧
      (ensureScratchBuffers sc ins outs).map = (fun _ => {}) ∧
      (ensureScratchBuffers sc ins outs).mapGen = 0) ∨
    (neededMap outs ≤ sc.mapCap ∧ (ensureScratchBuffers sc ins outs).mapCap = sc.mapCap ∧
      (ensureScratchBuffers sc ins outs).map = sc.map ∧
      (ensureScratchBuffers sc ins outs).mapGen = sc.mapGen) := by
  unfold ensureScratchBuffers
  by_cases h : neededMap outs > sc.mapCap
  · exact .inl ⟨by simp only [if_pos h], by simp only [if_pos h], by simp only [if_pos h]⟩
  · refine .inr ⟨Nat.le_of_not_lt h, ?_, ?_, ?_⟩ <;> simp only [if_neg h]

theorem ensureScratchBuffers_slotCapMax (sc : Scratch) (ins outs : Nat) :
    (ensureScratchBuffers sc ins outs).slotCapMax =
      max sc.slotCapMax (max minScratchSlotCap (addSat32 outs 1024)) := by
  unfold ensureScratchBuffers
  by_cases h : neededMap outs > sc.mapCap
  · simp only [if_pos h]
  · simp only [if_neg h]

variable {sc sc' : Scratch}

theorem ensureScratchBuffers_valid (h : sc.Valid) (ins outs : Nat) :
    (ensureScratchBuffers sc ins outs).Open := by
  have hslot : (ensureScratchBuffers sc ins outs).slotCapMax ≤ u32Max := by
    rw [ensureScratchBuffers_slotCapMax]
    exact Nat.max_le.mpr ⟨h.slot_le, Nat.max_le.mpr ⟨by decide, Nat.min_le_right _ _⟩⟩
  have hpos : 0 < (ensureScratchBuffers sc ins outs).slotCapMax := by
    exact lt_of_lt_of_le (show 0 < minScratchSlotCap by decide)
      ((le_max_left _ _).trans (le_max_right _ _))
  rcases ensureScratchBuffers_map sc ins outs with ⟨hcap, hmap, hgen⟩ | ⟨hle, hcap, hmap, hgen⟩
  · refine ⟨?_, fun c => ?_, ?_, hslot, hpos⟩
    · rw [hcap]; exact neededMap_pow outs
    · rw [hmap]; exact zero_le
    · rw [hgen]; decide
  · refine ⟨?_, fun c => ?_, ?_, hslot, hpos⟩
    · rw [hcap]
      rcases h.cap_pow with hzero | hpow
      · have := neededMap_pos outs
        omega
      · exact hpow
    · rw [hmap, hgen]; exact h.gen_le c
    · rw [hgen]; exact h.gen_lt

/-- **A build starts with no cell of its own generation**, also when the 8-bit
counter wraps. -/
theorem openScratch_open (h : sc.Valid) (scan : TraceScan) : (openScratch sc scan).Open ∧
      ∀ c, ((openScratch sc scan).map c).gen ≠ (openScratch sc scan).mapGen := by
  have hopen := ensureScratchBuffers_valid h scan.totalInputs scan.totalOutputs
  unfold openScratch
  generalize ensureScratchBuffers sc scan.totalInputs scan.totalOutputs = grown at hopen
  have hlt := hopen.gen_lt
  unfold nextGeneration
  by_cases hwrap : (grown.mapGen + 1) % 2 ^ 8 = 0
  · simp only [if_pos hwrap]
    exact ⟨⟨hopen.cap_pow, fun c => zero_le, (by decide : 1 < 2 ^ 8), hopen.slot_le,
      hopen.slot_pos⟩, fun c => (by decide : 0 ≠ 1)⟩
  · have hgen : (grown.mapGen + 1) % 2 ^ 8 = grown.mapGen + 1 := by omega
    rw [hgen]
    refine ⟨⟨hopen.cap_pow, fun c => Nat.le_succ_of_le (hopen.gen_le c),
      (by omega : grown.mapGen + 1 < 2 ^ 8), hopen.slot_le, hopen.slot_pos⟩, fun c => ?_⟩
    exact ne_of_lt (Nat.lt_succ_of_le (hopen.gen_le c))

/-! ### What one occurrence does -/

section Step
variable {env : BuildEnv} {m : BoundedMap Nat PtrLookup} {st st' : BuildState} {i j : Nat}
  {tensor : TensorMeta}

@[simp] theorem touch_map (st : BuildState) (env : BuildEnv) (s : Nat) (f : SlotInfo → SlotInfo) :
    (st.touch env s f).map = st.map := by
  unfold BuildState.touch
  split <;> rfl

@[simp] theorem touch_nextSlot (st : BuildState) (env : BuildEnv) (s : Nat)
    (f : SlotInfo → SlotInfo) : (st.touch env s f).nextSlot = st.nextSlot := by
  unfold BuildState.touch
  split <;> rfl

@[simp] theorem touch_edges (st : BuildState) (env : BuildEnv) (s : Nat)
    (f : SlotInfo → SlotInfo) : (st.touch env s f).edges = st.edges := by
  unfold BuildState.touch
  split <;> rfl

/-- The data-flow edge of input `j` of op `i`. -/
def flowEdge (v : PtrLookup) (src i j : Nat) : Edge := ⟨src, i, v.port, portOf j, .dataFlow⟩

/-- The alias edge of output `j` of op `i`, when the storage had a writer before. -/
def aliasEdges (v : PtrLookup) (i j : Nat) : List Edge :=
  (v.opIndex.map fun src => (⟨src, i, v.port, portOf j, .alias⟩ : Edge)).toList

/-- Everything an input can do: it finds its producer, it takes a new external slot,
or it is left without a slot. -/
theorem resolveInput_cases (hmask : PowMask env.mask) (hrep : MapRep env.gen env.mask st.map m)
    {producer : Option Nat} {slot : Nat}
    (h : resolveInput env i j tensor st = some (st', producer, slot)) :
    (∃ src, tensor.dataPtr ≠ 0 ∧ tensor.dataPtr ∈ m.keys ∧
      (m.val tensor.dataPtr).opIndex = some src ∧ producer = some src ∧
      slot = (m.val tensor.dataPtr).slotId ∧ st.edges.length < env.edgeCap ∧
      st' = ({ st with edges := st.edges ++ [flowEdge (m.val tensor.dataPtr) src i j] }).touch env
        (m.val tensor.dataPtr).slotId fun info => { info with deathOp := max info.deathOp i }) ∨
    (tensor.dataPtr ≠ 0 ∧ (tensor.dataPtr ∈ m.keys → (m.val tensor.dataPtr).opIndex = none) ∧
      st.nextSlot < env.slotCap ∧ producer = none ∧ slot = st.nextSlot ∧
      ∃ map', MapRep env.gen env.mask map' (m.put (env.mask + 1) tensor.dataPtr
          { opIndex := none, port := 0,
            slotId := if tensor.dataPtr ∈ m.keys then (m.val tensor.dataPtr).slotId
              else st.nextSlot }) ∧
        st' = { st.newSlot (.ofTensor tensor 0 i true) with map := map' }) ∨
    (producer = none ∧ slot = u32Max ∧ st' = st ∧ (tensor.dataPtr = 0 ∨
        (tensor.dataPtr ∈ m.keys → (m.val tensor.dataPtr).opIndex = none) ∧
          env.slotCap ≤ st.nextSlot)) := by
  have hlook := ptrMapLookup_eq hmask hrep tensor.dataPtr
  unfold resolveInput at h
  cases hsrc : (ptrMapLookup st.map env.gen env.mask tensor.dataPtr).opIndex with
  | some src =>
    -- an answer with a producer is an entry of the map
    have hmem : tensor.dataPtr ≠ 0 ∧ tensor.dataPtr ∈ m.keys := by
      by_contra hnot
      rw [hlook, BoundedMap.get?] at hsrc
      by_cases hnull : tensor.dataPtr = 0
      · simp [hnull] at hsrc
      · have : tensor.dataPtr ∉ m.keys := fun hin => hnot ⟨hnull, hin⟩
        simp [hnull, this] at hsrc
    have hval : ptrMapLookup st.map env.gen env.mask tensor.dataPtr = m.val tensor.dataPtr := by
      rw [hlook, BoundedMap.get?, if_neg hmem.1, if_pos hmem.2, getD_some]
    rw [hval] at h hsrc
    simp only [hsrc] at h
    obtain ⟨mid, hedge, hrest⟩ := bind_eq_some_iff.mp h
    unfold BuildState.addEdge at hedge
    split at hedge
    · rename_i hroom
      cases hedge
      cases hrest
      exact .inl ⟨src, hmem.1, hmem.2, hsrc, rfl, rfl, hroom, rfl⟩
    · cases hedge
  | none =>
    have hnone : tensor.dataPtr = 0 ∨
        (tensor.dataPtr ∈ m.keys → (m.val tensor.dataPtr).opIndex = none) := by
      by_cases hnull : tensor.dataPtr = 0
      · exact .inl hnull
      · refine .inr fun hin => ?_
        rw [hlook, BoundedMap.get?, if_neg hnull, if_pos hin] at hsrc
        exact hsrc
    simp only [hsrc] at h
    by_cases hnew : tensor.dataPtr ≠ 0 ∧ st.nextSlot < env.slotCap
    · rw [if_pos hnew] at h
      cases h
      obtain ⟨map', r, heq, -, -, hput, -⟩ :=
        ptrMapInsert_spec hmask hrep tensor.dataPtr none 0 st.nextSlot
      refine .inr (.inl ⟨hnew.1, hnone.resolve_left hnew.1, hnew.2, rfl, rfl, _, ?_, rfl⟩)
      change MapRep _ _ (ptrMapInsert st.map _ _ _ _ _ _).1 _
      rw [heq]
      exact hput
    · rw [if_neg hnew] at h
      cases h
      refine .inr (.inr ⟨rfl, rfl, rfl, ?_⟩)
      by_cases hnull : tensor.dataPtr = 0
      · exact .inl hnull
      · refine .inr ⟨hnone.resolve_left hnull, Nat.le_of_not_lt fun hlt => hnew ⟨hnull, hlt⟩⟩

/-- Everything an output can do: a null output gets no slot, an output of a storage
that another op touched shares its slot, and any other output takes a new slot while
the table has one. -/
theorem resolveOutput_cases (hmask : PowMask env.mask) (hrep : MapRep env.gen env.mask st.map m)
    {slot : Nat} (h : resolveOutput env i j tensor st = some (st', slot)) :
    (tensor.dataPtr = 0 ∧ slot = u32Max ∧ st' = st) ∨
    (tensor.dataPtr ≠ 0 ∧ tensor.dataPtr ∈ m.keys ∧
      (m.val tensor.dataPtr).opIndex ≠ some i ∧ slot = (m.val tensor.dataPtr).slotId ∧
      ((m.val tensor.dataPtr).opIndex.isSome → st.edges.length < env.edgeCap) ∧
      ∃ map', MapRep env.gen env.mask map' (m.put (env.mask + 1) tensor.dataPtr
          { opIndex := some i, port := portOf j, slotId := (m.val tensor.dataPtr).slotId }) ∧
        st' = ({ st with map := map',
                         edges := st.edges ++ aliasEdges (m.val tensor.dataPtr) i j }).touch env
          (m.val tensor.dataPtr).slotId fun info =>
            { info with deathOp := max info.deathOp i,
                        nbytes := max info.nbytes (storageNbytes tensor) }) ∨
    (tensor.dataPtr ≠ 0 ∧ (tensor.dataPtr ∈ m.keys → (m.val tensor.dataPtr).opIndex = some i) ∧
      st.nextSlot < env.slotCap ∧ slot = st.nextSlot ∧
      ∃ map', MapRep env.gen env.mask map' (m.put (env.mask + 1) tensor.dataPtr
          { opIndex := some i, port := portOf j, slotId := st.nextSlot }) ∧
        st' = { st.newSlot (.ofTensor tensor i i false) with map := map' }) ∨
    (tensor.dataPtr ≠ 0 ∧ (tensor.dataPtr ∈ m.keys → (m.val tensor.dataPtr).opIndex = some i) ∧
      env.slotCap ≤ st.nextSlot ∧ slot = u32Max ∧
      ∃ map', MapRep env.gen env.mask map' (m.put (env.mask + 1) tensor.dataPtr
          { opIndex := some i, port := portOf j,
            slotId := if tensor.dataPtr ∈ m.keys then (m.val tensor.dataPtr).slotId else 0 }) ∧
        st' = { st with map := map' }) := by
  unfold resolveOutput at h
  by_cases hnull : tensor.dataPtr = 0
  · simp only [if_pos hnull, some.injEq, Prod.mk.injEq] at h
    obtain ⟨rfl, rfl⟩ := h
    exact .inl ⟨hnull, rfl, rfl⟩
  rw [if_neg hnull] at h
  refine .inr ?_
  obtain ⟨map', r, heq, halias, hread, hput, hset⟩ :=
    ptrMapInsert_spec hmask hrep tensor.dataPtr (some i) (portOf j) 0
  rw [heq] at h
  by_cases hwas : r.wasAlias = true
  · obtain ⟨hmem, hoth⟩ := halias.mp hwas
    obtain ⟨hop, hport, hslot⟩ := hread hwas
    rw [if_pos hmem] at hput
    simp only [hwas, hop, hport, hslot, if_true] at h
    refine .inl ⟨hnull, hmem, hoth, ?_⟩
    cases hold : (m.val tensor.dataPtr).opIndex with
    | none =>
      simp only [hold, some.injEq, Prod.mk.injEq] at h
      obtain ⟨rfl, rfl⟩ := h
      refine ⟨rfl, by simp, map', hput, ?_⟩
      simp only [aliasEdges, hold, map_none, toList_none, append_nil]
    | some src =>
      simp only [hold] at h
      obtain ⟨mid, hedge, hlast⟩ := bind_eq_some_iff.mp h
      cases hlast
      unfold BuildState.addEdge at hedge
      split at hedge
      · rename_i hroom
        cases hedge
        unfold BuildState.touch at hroom ⊢
        refine ⟨rfl, fun _ => ?_, map', hput, ?_⟩
        · split at hroom <;> exact hroom
        · simp only [aliasEdges, hold, map_some, toList_some]
          split <;> rfl
      · cases hedge
  -- a new storage, one that the op wrote already, or a map without room
  have hsame : tensor.dataPtr ∈ m.keys → (m.val tensor.dataPtr).opIndex = some i :=
    fun hmem => not_not.mp fun hoth => hwas (halias.mpr ⟨hmem, hoth⟩)
  refine .inr ?_
  simp only [hwas, Bool.false_eq_true, if_false] at h
  by_cases hroom : st.nextSlot < env.slotCap
  · refine .inl ⟨hnull, hsame, hroom, ?_⟩
    have hset' := hset st.nextSlot
    rw [if_pos hroom] at h
    cases hcell : r.slot <;> rw [hcell] at h hset' <;> cases h <;> exact ⟨rfl, _, hset', rfl⟩
  · rw [if_neg hroom] at h
    cases h
    exact .inr ⟨hnull, hsame, Nat.le_of_not_lt hroom, rfl, map', hput, rfl⟩

end Step

/-! ### The occurrences of a trace -/

/-- One tensor occurrence of a trace, with what the builder resolved it to.  An
output has no producer. -/
structure Occurrence where
  op : Nat
  isOutput : Bool
  port : Nat
  tensor : TensorMeta
  producer : Option Nat
  slot : Nat
deriving DecidableEq

/-- The inputs of op `i`, from input `j` on. -/
def inputOccurrences (i : Nat) : Nat → List TensorMeta → List (Option Nat × Nat) → List Occurrence
  | j, tensor :: tensors, (producer, slot) :: found =>
    ⟨i, false, j, tensor, producer, slot⟩ :: inputOccurrences i (j + 1) tensors found
  | _, _, _ => []

/-- The outputs of op `i`, from output `j` on. -/
def outputOccurrences (i : Nat) : Nat → List TensorMeta → List Nat → List Occurrence
  | j, tensor :: tensors, slot :: slots =>
    ⟨i, true, j, tensor, none, slot⟩ :: outputOccurrences i (j + 1) tensors slots
  | _, _, _ => []

def entryOccurrences (i : Nat) (entry : TraceEntry) : List Occurrence :=
  inputOccurrences i 0 entry.inputMetas (entry.inputTraceIndices.zip entry.inputSlotIds) ++
    outputOccurrences i 0 entry.outputMetas entry.outputSlotIds

/-- The occurrences of a list of ops, from op `i` on, in the order of the trace. -/
def occurrencesFrom : Nat → List TraceEntry → List Occurrence
  | _, [] => []
  | i, entry :: rest => entryOccurrences i entry ++ occurrencesFrom (i + 1) rest

def BuiltTrace.occurrences (trace : BuiltTrace) : List Occurrence := occurrencesFrom 0 trace.ops

variable {env : BuildEnv} {found : List (Option Nat × Nat)} {i j first last : Nat}
  {st st' : BuildState} {tensors run : List TensorMeta}

/-- The loop over the tensors of one side of an op. -/
def resolveEach {α : Type} (resolve : Nat → TensorMeta → BuildState → Option (BuildState × α)) :
    Nat → List TensorMeta → BuildState → Option (BuildState × List α)
  | _, [], st => some (st, [])
  | j, tensor :: rest, st => do
    let (st, found) ← resolve j tensor st
    let (st, others) ← resolveEach resolve (j + 1) rest st
    some (st, found :: others)

theorem resolveInputs_eq : resolveInputs env i j tensors st =
    resolveEach (resolveInput env i) j tensors st := by
  induction tensors generalizing j st with
  | nil => rfl
  | cons tensor tensors ih => simp only [resolveInputs, resolveEach, ih]

theorem resolveOutputs_eq : resolveOutputs env i j tensors st =
    resolveEach (resolveOutput env i) j tensors st := by
  induction tensors generalizing j st with
  | nil => rfl
  | cons tensor tensors ih => simp only [resolveOutputs, resolveEach, ih]

section Each
variable {α : Type} {resolve : Nat → TensorMeta → BuildState → Option (BuildState × α)}
  {all : List α}

theorem resolveEach_cons {tensor : TensorMeta}
    (h : resolveEach resolve j (tensor :: tensors) st = some (st', all)) :
    ∃ mid one others, resolve j tensor st = some (mid, one) ∧
      resolveEach resolve (j + 1) tensors mid = some (st', others) ∧ all = one :: others := by
  obtain ⟨⟨mid, one⟩, hstep, h⟩ := bind_eq_some_iff.mp h
  obtain ⟨⟨last, others⟩, hrest, h⟩ := bind_eq_some_iff.mp h
  cases h
  exact ⟨mid, one, others, hstep, hrest, rfl⟩

theorem resolveEach_length (h : resolveEach resolve j tensors st = some (st', all)) :
    all.length = tensors.length := by
  induction tensors generalizing j st all with
  | nil =>
    cases h
    rfl
  | cons tensor tensors ih =>
    obtain ⟨mid, one, others, -, hrest, rfl⟩ := resolveEach_cons h
    rw [length_cons, ih hrest, length_cons]

end Each

variable {entries : List TraceEntry} {ops : List RecordedOp}

theorem buildOps_cons {op : RecordedOp}
    (h : buildOps env run first i (op :: ops) st = some (st', entries)) :
    ∃ inner ins outer outs others,
      resolveInputs env i 0 (opInputs run first op) st = some (inner, ins) ∧
      resolveOutputs env i 0 (opOutputs run first op) inner = some (outer, outs) ∧
      buildOps env run first (i + 1) ops outer = some (st', others) ∧
      entries = .ofOp op (opInputs run first op) (opOutputs run first op) ins outs :: others := by
  obtain ⟨⟨mid, entry⟩, hop, h⟩ := bind_eq_some_iff.mp h
  obtain ⟨⟨last, others⟩, hrest, hlast⟩ := bind_eq_some_iff.mp h
  cases hlast
  obtain ⟨⟨inner, ins⟩, hins, hop⟩ := bind_eq_some_iff.mp hop
  obtain ⟨⟨outer, outs⟩, houts, hent⟩ := bind_eq_some_iff.mp hop
  simp only [some.injEq, Prod.mk.injEq] at hent
  obtain ⟨rfl, rfl⟩ := hent
  exact ⟨inner, ins, outer, outs, others, hins, houts, hrest, rfl⟩

theorem entryOccurrences_ofOp (i : Nat) (op : RecordedOp) (inputs outputs : List TensorMeta)
    (ins : List (Option Nat × Nat)) (outs : List Nat) :
    entryOccurrences i (.ofOp op inputs outputs ins outs) =
      inputOccurrences i 0 inputs ins ++ outputOccurrences i 0 outputs outs := by
  have hzip : (ins.map Prod.fst).zip (ins.map Prod.snd) = ins := by
    rw [zip_map']
    simp
  simp only [entryOccurrences, TraceEntry.ofOp, hzip]

section Induct
variable {env : BuildEnv} {run : List TensorMeta} {first : Nat}

/-- What each phase of an op keeps.  `Inv i outputs hist st` holds in op `i`, among
its inputs or among its outputs, after the occurrences `hist`. -/
structure Kept (env : BuildEnv) (Inv : Nat → Bool → List Occurrence → BuildState → Prop) :
    Prop where
  input : ∀ i j tensor hist st st' producer slot, Inv i false hist st →
    resolveInput env i j tensor st = some (st', producer, slot) →
    Inv i false (hist ++ [⟨i, false, j, tensor, producer, slot⟩]) st'
  toOutputs : ∀ i hist st, Inv i false hist st → Inv i true hist st
  output : ∀ i j tensor hist st st' slot, Inv i true hist st →
    resolveOutput env i j tensor st = some (st', slot) →
    Inv i true (hist ++ [⟨i, true, j, tensor, none, slot⟩]) st'
  nextOp : ∀ i hist st, Inv i true hist st → Inv (i + 1) false hist st

variable {Inv : Nat → Bool → List Occurrence → BuildState → Prop}

variable {hist : List Occurrence} {st st' : BuildState} {tensors : List TensorMeta}

theorem Kept.inputs (h : Kept env Inv) {i j : Nat} {found : List (Option Nat × Nat)}
    (hinv : Inv i false hist st) (hrun : resolveInputs env i j tensors st = some (st', found)) :
    Inv i false (hist ++ inputOccurrences i j tensors found) st' := by
  rw [resolveInputs_eq] at hrun
  induction tensors generalizing j hist st found with
  | nil =>
    cases hrun
    simpa [inputOccurrences] using hinv
  | cons tensor tensors ih =>
    obtain ⟨mid, ⟨producer, slot⟩, others, hstep, hrest, rfl⟩ := resolveEach_cons hrun
    have hend := ih (h.input i j tensor hist st mid producer slot hinv hstep) hrest
    rwa [append_assoc] at hend

theorem Kept.outputs (h : Kept env Inv) {i j : Nat} {slots : List Nat}
    (hinv : Inv i true hist st) (hrun : resolveOutputs env i j tensors st = some (st', slots)) :
    Inv i true (hist ++ outputOccurrences i j tensors slots) st' := by
  rw [resolveOutputs_eq] at hrun
  induction tensors generalizing j hist st slots with
  | nil =>
    cases hrun
    simpa [outputOccurrences] using hinv
  | cons tensor tensors ih =>
    obtain ⟨mid, slot, others, hstep, hrest, rfl⟩ := resolveEach_cons hrun
    have hend := ih (h.output i j tensor hist st mid slot hinv hstep) hrest
    rwa [append_assoc] at hend

/-- **An invariant that every occurrence keeps holds after the whole loop.** -/
theorem Kept.buildOps (h : Kept env Inv) {i : Nat} {ops : List RecordedOp}
    {entries : List TraceEntry}
    (hinv : Inv i false hist st) (hrun : buildOps env run first i ops st = some (st', entries)) :
    Inv (i + ops.length) false (hist ++ occurrencesFrom i entries) st' := by
  induction ops generalizing i hist st entries with
  | nil =>
    obtain ⟨rfl, rfl⟩ := hrun
    simpa [occurrencesFrom] using hinv
  | cons op ops ih =>
    obtain ⟨inner, ins, outer, outs, others, hins, houts, hrest, rfl⟩ := buildOps_cons hrun
    have hmid := h.toOutputs i _ _ (h.inputs hinv hins)
    have hall := ih (h.nextOp i _ _ (h.outputs hmid houts)) hrest
    rw [occurrencesFrom, entryOccurrences_ofOp, length_cons,
      show i + (ops.length + 1) = i + 1 + ops.length by omega]
    simpa only [append_assoc] using hall

end Induct

/-! ### A whole build -/

variable {log : Nat → TensorMeta} {trace : BuiltTrace}

/-- What a finished build ran: its scan, its loop and its slot array. -/
theorem buildTraceFrom_built (h : buildTraceFrom sc log ops = .built sc' trace) :
    ∃ scan st, scanTrace ops = .ok scan ∧ buildOps (buildEnv (openScratch sc scan) scan)
        (copyRun log (scan.firstMeta.getD 0) scan.maxMetaEnd) (scan.firstMeta.getD 0) 0 ops
        { map := (openScratch sc scan).map } = some (st, trace.ops) ∧
      sc' = { openScratch sc scan with map := st.map } ∧
      trace.slots = (range (min st.nextSlot (buildEnv (openScratch sc scan) scan).slotCap)).map
        (fun s => (st.slots s).toTensorSlot s) ∧
      trace.edges = st.edges := by
  unfold buildTraceFrom at h
  cases hscan : scanTrace ops with
  | error metaEnd => simp [hscan] at h
  | ok scan =>
    simp only [hscan] at h
    split at h
    · cases h
    · split at h
      · cases h
      · rename_i st entries hops
        injection h with hsc htrace
        subst hsc htrace
        exact ⟨scan, st, rfl, hops, rfl, rfl, rfl⟩

theorem open_rep (hopen : sc.Open) (hne : ∀ c, (sc.map c).gen ≠ sc.mapGen) :
    PowMask (sc.mapCap - 1) ∧ MapRep sc.mapGen (sc.mapCap - 1) sc.map ⟨[], fun _ => {}⟩ := by
  obtain ⟨k, hk⟩ := hopen.cap_pow
  have hpos := Nat.two_pow_pos k
  refine ⟨⟨k, by omega⟩, Represents.empty _ fun c _ => ?_, hopen.gen_le⟩
  simp [ptrKey, hne c]

theorem kept_rep (hmask : PowMask env.mask) :
    Kept env fun _ _ _ st => ∃ m, MapRep env.gen env.mask st.map m where
  input := by
    rintro i j tensor hist st st' producer slot ⟨m, hm⟩ h
    rcases resolveInput_cases hmask hm h with
      ⟨src, -, -, -, -, -, -, rfl⟩ | ⟨-, -, -, -, -, map', hm', rfl⟩ | ⟨-, -, rfl, -⟩
    · exact ⟨m, by rw [touch_map]; exact hm⟩
    · exact ⟨_, hm'⟩
    · exact ⟨m, hm⟩
  toOutputs := fun _ _ _ h => h
  output := by
    rintro i j tensor hist st st' slot ⟨m, hm⟩ h
    rcases resolveOutput_cases hmask hm h with
      ⟨-, -, rfl⟩ | ⟨-, -, -, -, -, map', hm', rfl⟩ | ⟨-, -, -, -, map', hm', rfl⟩ |
      ⟨-, -, -, -, map', hm', rfl⟩
    · exact ⟨m, hm⟩
    · exact ⟨_, by rw [touch_map]; exact hm'⟩
    · exact ⟨_, hm'⟩
    · exact ⟨_, hm'⟩
  nextOp := fun _ _ _ h => h

theorem buildOps_rep (hopen : sc.Open) (hne : ∀ c, (sc.map c).gen ≠ sc.mapGen) {scan : TraceScan}
    (hops : buildOps (buildEnv sc scan) run first 0 ops { map := sc.map } = some (st, entries)) :
    ∃ m, MapRep sc.mapGen (sc.mapCap - 1) st.map m := by
  obtain ⟨hmask, hrep⟩ := open_rep hopen hne
  have hkept : Kept (buildEnv sc scan) fun _ _ _ st =>
      ∃ m, MapRep (buildEnv sc scan).gen (buildEnv sc scan).mask st.map m := kept_rep hmask
  have hstart : ∃ m, MapRep (buildEnv sc scan).gen (buildEnv sc scan).mask sc.map m := ⟨_, hrep⟩
  exact @Kept.buildOps _ _ _ _ [] _ _ hkept 0 ops _ hstart hops

theorem Scratch.Valid.built (hval : sc.Valid) (h : buildTraceFrom sc log ops = .built sc' trace) :
    sc'.Valid := by
  obtain ⟨scan, st, -, hops, rfl, -, -⟩ := buildTraceFrom_built h
  obtain ⟨hopen, hne⟩ := openScratch_open hval scan
  generalize openScratch sc scan = opened at hopen hne hops
  obtain ⟨m, hm⟩ := buildOps_rep hopen hne hops
  exact ⟨.inr hopen.cap_pow, hm.gen_le, hopen.gen_lt, hopen.slot_le⟩

/-- **The scratch invariant holds in every state that builds can leave behind.** -/
theorem Scratch.Reachable.valid (h : sc.Reachable) : sc.Valid := by
  induction h with
  | init => exact ⟨.inl rfl, fun _ => le_rfl, by decide, by decide⟩
  | built _ hbuild ih => exact ih.built hbuild

/-! ### The accesses of a trace -/

/-- One access of an op to a storage address, before anything is resolved. -/
structure Access where
  op : Nat
  isOutput : Bool
  addr : Nat
deriving DecidableEq

def Occurrence.access (o : Occurrence) : Access := ⟨o.op, o.isOutput, o.tensor.dataPtr⟩

/-- The accesses of the ops, from op `i` on: of each op its inputs, then its outputs. -/
def accessesFrom (run : List TensorMeta) (first : Nat) : Nat → List RecordedOp → List Access
  | _, [] => []
  | i, op :: rest =>
    (opInputs run first op).map (fun tensor => ⟨i, false, tensor.dataPtr⟩) ++
      (opOutputs run first op).map (fun tensor => ⟨i, true, tensor.dataPtr⟩) ++
      accessesFrom run first (i + 1) rest

def accessesOf (log : Nat → TensorMeta) (ops : List RecordedOp) : List Access :=
  match scanTrace ops with
  | .error _ => []
  | .ok scan =>
    let first := scan.firstMeta.getD 0
    accessesFrom (copyRun log first scan.maxMetaEnd) first 0 ops

/-- The capacities that a build works with, from the scratch state before it. -/
def envOf (sc : Scratch) (ops : List RecordedOp) : BuildEnv :=
  match scanTrace ops with
  | .error _ => buildEnv sc {}
  | .ok scan => buildEnv (openScratch sc scan) scan

theorem runSlice_copyRun (log : Nat → TensorMeta) {offset n : Nat} (h : offset + n ≤ last - first) :
    runSlice (copyRun log first last) offset n =
      (range n).map fun j => log (first + offset + j) := by
  refine map_congr_left fun j hj => ?_
  have hlt : offset + j < last - first := by
    have := mem_range.mp hj
    omega
  rw [copyRun, getD_eq_getElem?_getD, getElem?_map, getElem?_range hlt, add_assoc]
  rfl

theorem opTensors_copyRun (log : Nat → TensorMeta) {start : Nat} {op : RecordedOp}
    (hmeta : op.metaIndex = some start) (hfir : first ≤ start)
    (hlast : start + op.entry.numInputs + op.entry.numOutputs ≤ last) :
    opInputs (copyRun log first last) first op =
        (range op.entry.numInputs).map (fun j => log (start + j)) ∧
      opOutputs (copyRun log first last) first op =
        (range op.entry.numOutputs).map fun j => log (start + op.entry.numInputs + j) := by
  have hoff : first + (start - first) = start := by omega
  have hoff' : first + (start - first + op.entry.numInputs) = start + op.entry.numInputs := by
    omega
  simp only [opInputs, opOutputs, hmeta]
  rw [runSlice_copyRun log (by omega), runSlice_copyRun log (by omega), hoff, hoff']
  exact ⟨rfl, rfl⟩

theorem inputOccurrences_access (h : found.length = tensors.length) :
    (inputOccurrences i j tensors found).map Occurrence.access =
      tensors.map fun tensor => ⟨i, false, tensor.dataPtr⟩ := by
  induction tensors generalizing j found with
  | nil => simp [inputOccurrences]
  | cons tensor tensors ih =>
    cases found with
    | nil => cases h
    | cons f found =>
      simp only [inputOccurrences, map_cons, Occurrence.access]
      rw [ih (Nat.succ.inj h)]

theorem outputOccurrences_access {slots : List Nat} (h : slots.length = tensors.length) :
    (outputOccurrences i j tensors slots).map Occurrence.access =
      tensors.map fun tensor => ⟨i, true, tensor.dataPtr⟩ := by
  induction tensors generalizing j slots with
  | nil => simp [outputOccurrences]
  | cons tensor tensors ih =>
    cases slots with
    | nil => cases h
    | cons s slots =>
      simp only [outputOccurrences, map_cons, Occurrence.access]
      rw [ih (Nat.succ.inj h)]

theorem occurrencesFrom_access (h : buildOps env run first i ops st = some (st', entries)) :
    (occurrencesFrom i entries).map Occurrence.access = accessesFrom run first i ops := by
  induction ops generalizing i st entries with
  | nil =>
    simp only [buildOps, some.injEq, Prod.mk.injEq] at h
    rw [← h.2]
    rfl
  | cons op ops ih =>
    obtain ⟨inner, ins, outer, outs, others, hins, houts, hrest, rfl⟩ := buildOps_cons h
    rw [occurrencesFrom, entryOccurrences_ofOp, map_append, map_append,
      inputOccurrences_access (resolveEach_length (resolveInputs_eq ▸ hins)),
      outputOccurrences_access (resolveEach_length (resolveOutputs_eq ▸ houts)), ih hrest]
    rfl

/-- The run of a finished build, as the results below use it: an empty map and no
slot at the start, and every invariant that the occurrences keep at the end. -/
structure BuildRun (env : BuildEnv) (ops : List RecordedOp) (accesses : List Access)
    (trace : BuiltTrace) (start st : BuildState) : Prop where
  mask : PowMask env.mask
  rep : MapRep env.gen env.mask start.map ⟨[], fun _ => {}⟩
  nextSlot_zero : start.nextSlot = 0
  no_edges : start.edges = []
  slotCap_pos : 0 < env.slotCap
  slotCap_le : env.slotCap ≤ u32Max
  accesses_eq : trace.occurrences.map Occurrence.access = accesses
  edges_eq : trace.edges = st.edges
  slots_eq : trace.slots = (range (min st.nextSlot env.slotCap)).map
    fun s => (st.slots s).toTensorSlot s
  induct : ∀ Inv : Nat → Bool → List Occurrence → BuildState → Prop, Kept env Inv →
    Inv 0 false [] start → Inv ops.length false trace.occurrences st

theorem built_run (hsc : sc.Reachable) (h : buildTraceFrom sc log ops = .built sc' trace) :
    ∃ start st, BuildRun (envOf sc ops) ops (accessesOf log ops) trace start st := by
  obtain ⟨scan, st, hscan, hops, -, hslots, hedg⟩ := buildTraceFrom_built h
  obtain ⟨hopen, hne⟩ := openScratch_open hsc.valid scan
  simp only [envOf, accessesOf, hscan]
  generalize openScratch sc scan = opened at hopen hne hops hslots
  obtain ⟨hmask, hrep⟩ := open_rep hopen hne
  refine ⟨{ map := opened.map }, st, hmask, hrep, rfl, rfl, ?_, ?_, occurrencesFrom_access hops,
    hedg, hslots, fun Inv hkept hstart => ?_⟩
  · exact Nat.lt_min.mpr ⟨hopen.slot_pos, lt_of_lt_of_le (by decide) (le_max_left _ _)⟩
  · exact (min_le_left _ _).trans hopen.slot_le
  · have hend := @Kept.buildOps _ _ _ _ [] _ _ hkept 0 ops _ hstart hops
    rwa [zero_add] at hend

end Crucible
