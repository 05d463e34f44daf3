import Crucible.TraceIntervals
import Crucible.TraceTotal

/-! # The graph of a trace

What the graph of a build should say, in terms of the tensor occurrences of its own
entries.  The edges and the lifetimes are always right (`BuildRun.edges`, `BuildRun.slots`).
The producers are right as long as the pointer map holds the address, which has a fixed
number of cells that unwritten inputs use up too (`BuildRun.producers_iff`).
-/
namespace Crucible
open List
open OpenAddressing

/-! ### Writers in trace order -/

/-- Op `k` writes the address. -/
def Writes (accesses : List Access) (k addr : Nat) : Prop :=
  ∃ a ∈ accesses, a.isOutput = true ∧ a.op = k ∧ a.addr = addr

/-- Op `k` is the last op before op `i` that writes the address. -/
def LastWriteBefore (accesses : List Access) (i addr k : Nat) : Prop :=
  k < i ∧ Writes accesses k addr ∧ ∀ k', k < k' → k' < i → ¬ Writes accesses k' addr

def InTraceOrder (accesses : List Access) : Prop := accesses.Pairwise fun a b => a.op ≤ b.op

variable {accesses : List Access} {addr k : Nat}

theorem writes_append {a : Access} : Writes (accesses ++ [a]) k addr ↔
      Writes accesses k addr ∨ a.isOutput = true ∧ a.op = k ∧ a.addr = addr := by
  simp only [Writes, mem_append, mem_singleton, or_and_right, exists_or, exists_eq_left]

theorem lastWriter_spec (hsor : InTraceOrder accesses) (h : lastWriter accesses addr = some k) :
    Writes accesses k addr ∧ ∀ k', Writes accesses k' addr → k' ≤ k := by
  induction accesses using reverseRecOn with
  | nil => cases h
  | append_singleton as a ih =>
    obtain ⟨hbef, -, hlast⟩ := pairwise_append.mp hsor
    rw [lastWriter_append] at h
    by_cases hw : a.isOutput ∧ a.addr = addr
    · rw [if_pos hw] at h
      cases h
      refine ⟨writes_append.mpr (.inr ⟨hw.1, rfl, hw.2⟩), fun k' hk' => ?_⟩
      rcases writes_append.mp hk' with ⟨x, hx, -, rfl, -⟩ | ⟨-, rfl, -⟩
      · exact hlast x hx a (mem_singleton_self a)
      · exact le_rfl
    · rw [if_neg hw] at h
      obtain ⟨hwrit, hmax⟩ := ih hbef h
      refine ⟨writes_append.mpr (.inl hwrit), fun k' hk' => ?_⟩
      rcases writes_append.mp hk' with hk' | ⟨hout, -, haddr⟩
      · exact hmax k' hk'
      · exact absurd ⟨hout, haddr⟩ hw

theorem writerBefore_some (hsor : InTraceOrder accesses) {i : Nat} :
    writerBefore accesses i addr = some k ↔ LastWriteBefore accesses i addr k := by
  have hfil : ∀ k', Writes (accesses.filter fun a => a.op < i) k' addr ↔
      Writes accesses k' addr ∧ k' < i := by
    intro k'
    constructor
    · rintro ⟨a, ha, hout, rfl, haddr⟩
      obtain ⟨hmem, hlt⟩ := mem_filter.mp ha
      exact ⟨⟨a, hmem, hout, rfl, haddr⟩, of_decide_eq_true hlt⟩
    · rintro ⟨⟨a, hmem, hout, rfl, haddr⟩, hlt⟩
      exact ⟨a, mem_filter.mpr ⟨hmem, decide_eq_true hlt⟩, hout, rfl, haddr⟩
  have hspec : ∀ {k'}, writerBefore accesses i addr = some k' →
      LastWriteBefore accesses i addr k' := by
    intro k' h
    obtain ⟨hw, hmax⟩ := lastWriter_spec (List.Pairwise.filter _ hsor) h
    obtain ⟨hwrit, hlt⟩ := (hfil k').mp hw
    refine ⟨hlt, hwrit, fun k'' hgt hlt'' hw'' => ?_⟩
    exact absurd (hmax k'' ((hfil k'').mpr ⟨hw'', hlt''⟩)) hgt.not_ge
  refine ⟨hspec, fun hlast => ?_⟩
  obtain ⟨hlt, hwrit, hnone⟩ := hlast
  cases hfound : writerBefore accesses i addr with
  | none =>
    obtain ⟨a, ha, hout, hop, haddr⟩ := (hfil k).mpr ⟨hwrit, hlt⟩
    exact absurd ⟨hout, haddr⟩ (lastWriter_none.mp hfound a ha)
  | some k' =>
    obtain ⟨hlt', hwrit', hnone'⟩ := hspec hfound
    -- neither of two last writers can be later than the other
    rcases lt_trichotomy k k' with h | rfl | h
    · exact absurd hwrit' (hnone k' h hlt')
    · rfl
    · exact absurd hwrit (hnone' k h hlt)

theorem kept_sorted {env : BuildEnv} :
    Kept env fun i _ hist _ => InTraceOrder (accessed hist) ∧ ∀ a ∈ accessed hist, a.op ≤ i := by
  have happ : ∀ {i : Nat} {hist : List Occurrence} {o : Occurrence}, o.op = i →
      InTraceOrder (accessed hist) ∧ (∀ a ∈ accessed hist, a.op ≤ i) →
      InTraceOrder (accessed (hist ++ [o])) ∧ ∀ a ∈ accessed (hist ++ [o]), a.op ≤ i := by
    rintro i hist o rfl ⟨hsor, hle⟩
    rw [accessed_append]
    refine ⟨pairwise_append.mpr ⟨hsor, pairwise_singleton _ _, ?_⟩, ?_⟩
    · intro a ha b hb
      rw [mem_singleton.mp hb]
      exact hle a ha
    · intro a ha
      rcases mem_append.mp ha with ha | ha
      · exact hle a ha
      · rw [mem_singleton.mp ha]
        exact le_rfl
  exact
    { input := fun _ _ _ _ _ _ _ _ hinv _ => happ rfl hinv
      toOutputs := fun _ _ _ hinv => hinv
      output := fun _ _ _ _ _ _ _ hinv _ => happ rfl hinv
      nextOp := fun _ _ _ hinv => ⟨hinv.1, fun a ha => Nat.le_succ_of_le (hinv.2 a ha)⟩ }

/-! ### The finished graph -/

section Run
variable {env : BuildEnv} {ops : List RecordedOp} {accesses : List Access} {trace : BuiltTrace}
  {start st : BuildState}

variable (hrun : BuildRun env ops accesses trace start st)
include hrun

theorem BuildRun.sorted : InTraceOrder accesses := by
  rw [← hrun.accesses_eq]
  exact (hrun.induct _ kept_sorted ⟨List.Pairwise.nil, by simp [accessed]⟩).1

/-- The edges of a finished build: one for each input with a producer, in order. -/
theorem BuildRun.edges :
    flowsOf .dataFlow trace.edges = trace.occurrences.filterMap Occurrence.flow ∧
      (∀ e ∈ trace.edges, e.src < e.dst) ∧ trace.edges.length ≤ trace.occurrences.length ∧
      trace.edges.length ≤ env.edgeCap := by
  have hstart : EdgesOk env ⟨[], fun _ => {}⟩ 0 false [] start := by
    have hedg := hrun.no_edges
    exact ⟨hrun.rep, by simp, by simp [hedg, flowsOf], by simp [hedg], by simp [hedg],
      by simp [hedg]⟩
  obtain ⟨m, he⟩ := hrun.induct _ (kept_edges hrun.mask) ⟨_, hstart⟩
  rw [hrun.edges_eq]
  exact ⟨he.flows, he.forward, he.count_le, he.cap_le⟩

theorem BuildRun.wired_start : Wired env ⟨[], fun _ => {}⟩ 0 false [] start :=
  ⟨hrun.rep, rfl, hrun.nextSlot_zero, by simp, by simp, by simp [accessed, lastWriter], by simp,
    by simp, by simp⟩

theorem BuildRun.producer {o : Occurrence}
    (ho : o ∈ trace.occurrences) (hin : o.isOutput = false) (hne : o.tensor.dataPtr ≠ 0) :
    o.producer = if o.tensor.dataPtr ∈ (keyScan env accesses).keys then
      writerBefore accesses o.op o.tensor.dataPtr else none := by
  obtain ⟨m, hw⟩ := hrun.induct _ (kept_wired hrun.mask) ⟨_, hrun.wired_start⟩
  have hacc : accessed trace.occurrences = accesses := hrun.accesses_eq
  rw [hw.producers o ho hin hne, hw.keys_eq, hacc]

end Run

/-- The graph says what the trace does: producers, edges and lifetimes. -/
structure BuiltTrace.WellWired (trace : BuiltTrace) (edgeCap : Nat) : Prop where
  producers : ∀ o ∈ trace.occurrences, o.isOutput = false → o.tensor.dataPtr ≠ 0 →
    ∀ k, o.producer = some k ↔ LastWriteBefore (accessed trace.occurrences) o.op o.tensor.dataPtr k
  flows : flowsOf .dataFlow trace.edges = trace.occurrences.filterMap Occurrence.flow
  forward : ∀ e ∈ trace.edges, e.src < e.dst
  lifetimes : ∀ o ∈ trace.occurrences, o.slot ≠ u32Max →
    ∃ slot, trace.slots[o.slot]? = some slot ∧ slot.birthOp ≤ o.op ∧ o.op ≤ slot.deathOp
  edges_le : trace.edges.length ≤ edgeCap

/-- Every address that one op writes and a later op reads is recorded. -/
def WritesRecorded (env : BuildEnv) (accesses : List Access) : Prop :=
  ∀ a ∈ accesses, ∀ b ∈ accesses, a.isOutput = true → b.isOutput = false → a.addr ≠ 0 →
    b.addr = a.addr → a.op < b.op → a.addr ∈ (keyScan env accesses).keys

section Run
variable {env : BuildEnv} {ops : List RecordedOp} {accesses : List Access} {trace : BuiltTrace}
  {start st : BuildState}

theorem BuildRun.lifetimes (hrun : BuildRun env ops accesses trace start st) {o : Occurrence}
    (ho : o ∈ trace.occurrences) (hval : o.slot ≠ u32Max) :
    ∃ slot, trace.slots[o.slot]? = some slot ∧ slot.birthOp ≤ o.op ∧ o.op ≤ slot.deathOp := by
  obtain ⟨m, hs, hslots⟩ := hrun.slots
  obtain ⟨hlt, hbir, hdeath⟩ := hs.covered o ho hval
  refine ⟨(st.slots o.slot).toTensorSlot o.slot, ?_, hbir, hdeath⟩
  rw [hslots, getElem?_map, getElem?_range hlt]
  rfl

theorem BuildRun.producers_iff (hrun : BuildRun env ops accesses trace start st) :
    (∀ o ∈ trace.occurrences, o.isOutput = false → o.tensor.dataPtr ≠ 0 →
      ∀ k, o.producer = some k ↔ LastWriteBefore accesses o.op o.tensor.dataPtr k) ↔
    WritesRecorded env accesses := by
  constructor
  · intro hprod a ha b hb hout hin hne haddr hlt
    rw [← hrun.accesses_eq] at hb
    obtain ⟨o, ho, rfl⟩ := mem_map.mp hb
    change o.tensor.dataPtr = a.addr at haddr
    have hne' : o.tensor.dataPtr ≠ 0 := haddr ▸ hne
    -- the write of `a` makes the fold find some last writer
    cases hw : writerBefore accesses o.op a.addr with
    | none =>
      exact absurd ⟨hout, rfl⟩ (lastWriter_none.mp hw a
        (mem_filter.mpr ⟨ha, decide_eq_true hlt⟩))
    | some k =>
      have hlast := (writerBefore_some hrun.sorted).mp hw
      rw [← haddr] at hlast
      have hfound := (hprod o ho hin hne' k).mpr hlast
      rw [hrun.producer ho hin hne', haddr] at hfound
      by_contra hnot
      rw [if_neg hnot] at hfound
      cases hfound
  · intro hrec o ho hin hne k
    rw [hrun.producer ho hin hne]
    by_cases hkey : o.tensor.dataPtr ∈ (keyScan env accesses).keys
    · rw [if_pos hkey, writerBefore_some hrun.sorted]
    · rw [if_neg hkey]
      refine ⟨nofun, fun hlast => ?_⟩
      obtain ⟨hlt, ⟨a, ha, hout, rfl, haddr⟩, -⟩ := hlast
      have hb : o.access ∈ accesses := by
        rw [← hrun.accesses_eq]
        exact mem_map_of_mem ho
      rw [← haddr] at hkey hne
      exact absurd (hrec a ha o.access hb hout hin hne haddr.symm hlt) hkey

end Run

/-! ### Which addresses are recorded -/

section Recorded
variable {mapCap slotCap : Nat} {s : KeyScan} {a : Access}

theorem recordAccess_keys (mapCap slotCap : Nat) (s : KeyScan) (a : Access) :
    (recordAccess mapCap slotCap s a).keys = s.keys ∨ a.addr ≠ 0 ∧
        (recordAccess mapCap slotCap s a).keys = BoundedMap.addKey mapCap s.keys a.addr := by
  by_cases hne : a.addr = 0
  · exact .inl (by rw [record_null hne])
  cases hout : a.isOutput with
  | true =>
    by_cases halias : a.addr ∈ s.keys ∧ s.writer a.addr ≠ some a.op
    · exact .inl (by rw [record_output_alias mapCap slotCap s a hne hout halias])
    · have hsame : a.addr ∈ s.keys → s.writer a.addr = some a.op :=
        fun hin => by_contra fun hc => halias ⟨hin, hc⟩
      exact .inr ⟨hne, by rw [record_output_new mapCap slotCap s a hne hout hsame]⟩
  | false =>
    by_cases hnew : (a.addr ∈ s.keys → s.writer a.addr = none) ∧ s.used < slotCap
    · exact .inr ⟨hne, by rw [record_input_new mapCap slotCap s a hne hout hnew]⟩
    · exact .inl (by rw [record_input_skip hout hnew])

theorem recordAccess_full (hfull : mapCap ≤ s.keys.length) :
    (recordAccess mapCap slotCap s a).keys = s.keys := by
  rcases recordAccess_keys mapCap slotCap s a with h | ⟨-, h⟩
  · exact h
  · rw [h, BoundedMap.addKey_full _ hfull]

theorem record_reads (addrs : List Nat) (i : Nat) (s : KeyScan) (hne : 0 ∉ addrs)
    (hnod : (s.keys ++ addrs).Nodup) (hcel : (s.keys ++ addrs).length ≤ mapCap)
    (hslots : s.used + addrs.length ≤ slotCap) :
    ((addrs.map fun p => (⟨i, false, p⟩ : Access)).foldl (recordAccess mapCap slotCap) s).keys =
      s.keys ++ addrs := by
  induction addrs generalizing s with
  | nil => simp
  | cons p addrs ih =>
    rw [length_append, length_cons] at hcel
    rw [length_cons] at hslots
    have hp : p ∉ s.keys := fun hin =>
      (nodup_append.mp hnod).2.2 p hin p mem_cons_self rfl
    have hstep := record_input_new mapCap slotCap s ⟨i, false, p⟩
      (fun hz => hne (hz ▸ mem_cons_self)) rfl ⟨fun hin => absurd hin hp, by omega⟩
    have hadd : BoundedMap.addKey mapCap s.keys p = s.keys ++ [p] := by
      rw [BoundedMap.addKey, if_neg hp, if_pos (by omega)]
    rw [hadd] at hstep
    rw [map_cons, foldl_cons, hstep, ih]
    · simp
    · exact fun hz => hne (mem_cons_of_mem _ hz)
    · simpa using hnod
    · simp only [length_append, length_singleton]
      omega
    · simp only
      omega

theorem foldl_record_full (accesses : List Access) (s : KeyScan) (hfull : mapCap ≤ s.keys.length) :
    (accesses.foldl (recordAccess mapCap slotCap) s).keys = s.keys := by
  induction accesses generalizing s with
  | nil => rfl
  | cons a accesses ih =>
    have hstep : (recordAccess mapCap slotCap s a).keys = s.keys := recordAccess_full hfull
    rw [foldl_cons, ih _ (by rw [hstep]; exact hfull), hstep]

end Recorded

/-- An op that reads as many new addresses as the map has cells leaves no cell for the
accesses after it. -/
theorem keyScan_crowd {env : BuildEnv} {addrs : List Nat} (i : Nat) (rest : List Access)
    (hne : 0 ∉ addrs) (hnod : addrs.Nodup) (hcel : addrs.length = env.mask + 1)
    (hslots : addrs.length ≤ env.slotCap) :
    (keyScan env ((addrs.map fun p => ⟨i, false, p⟩) ++ rest)).keys = addrs := by
  have hreads := record_reads addrs i {} hne hnod (le_of_eq hcel)
    (show 0 + addrs.length ≤ env.slotCap by omega)
  change _ = addrs at hreads
  rw [keyScan, foldl_append, foldl_record_full, hreads]
  rw [hreads]
  exact le_of_eq hcel.symm

/-! ### When the graph is right -/

/-- **When the graph of a trace is right.**  Every build that succeeds wires the graph
as the trace runs exactly when every address that one op writes and a later op reads
is recorded in the pointer map. -/
theorem traceWired_iff {sc sc' : Scratch} {log : Nat → TensorMeta} {ops : List RecordedOp}
    {trace : BuiltTrace} (hsc : sc.Reachable)
    (h : buildTraceFrom sc log ops = .built sc' trace) :
    trace.WellWired (envOf sc ops).edgeCap ↔
      WritesRecorded (envOf sc ops) (accessesOf log ops) := by
  obtain ⟨start, st, hrun⟩ := built_run hsc h
  have haccess : accessed trace.occurrences = accessesOf log ops := hrun.accesses_eq
  rw [← hrun.producers_iff]
  constructor
  · intro hwired
    rw [← haccess]
    exact hwired.producers
  · intro hprod
    obtain ⟨hflows, hforward, -, hcap⟩ := hrun.edges
    rw [← haccess] at hprod
    exact ⟨hprod, hflows, hforward, fun o ho hvalid => hrun.lifetimes ho hvalid, hcap⟩

instance (env : BuildEnv) (accesses : List Access) : Decidable (WritesRecorded env accesses) :=
  inferInstanceAs (Decidable (∀ a ∈ accesses, ∀ b ∈ accesses, _ → _))

/-- Two ops, of which the second reads what the first wrote. -/
def chainOps : List RecordedOp :=
  [{ entry := { schemaHash := 1, shapeHash := 1, numOutputs := 1 }, metaIndex := some 0 },
   { entry := { schemaHash := 2, shapeHash := 1, numInputs := 1 }, metaIndex := some 1 }]

theorem traceWired_chain : ∃ sc' trace,
    buildTraceFrom {} (fun _ => { dataPtr := 256 }) chainOps = .built sc' trace ∧
      trace.WellWired (envOf {} chainOps).edgeCap := by
  obtain ⟨sc', trace, h⟩ := buildTraceFrom_total {} (fun _ => { dataPtr := 256 })
    (show scanTrace chainOps = .ok ⟨2, some 0, 1, 1⟩ from rfl) (by decide) (by decide)
  exact ⟨sc', trace, h, (traceWired_iff .init h).mpr (by decide)⟩

/-- Op 0 reads as many addresses as the pointer map has cells, op 1 writes another one,
and op 2 reads it. -/
def crowdedOps : List RecordedOp :=
  [{ entry := { schemaHash := 1, shapeHash := 1, numInputs := 4096 }, metaIndex := some 0 },
   { entry := { schemaHash := 2, shapeHash := 1, numOutputs := 1 }, metaIndex := some 4096 },
   { entry := { schemaHash := 3, shapeHash := 1, numInputs := 1 }, metaIndex := some 4097 }]

def crowdedLog (i : Nat) : TensorMeta := { dataPtr := if i < 4096 then i + 1 else 4097 }

theorem crowded_accesses : accessesOf crowdedLog crowdedOps =
    ((range 4096).map (· + 1)).map (fun p => (⟨0, false, p⟩ : Access)) ++
      [⟨1, true, 4097⟩, ⟨2, false, 4097⟩] := by
  have hscan : scanTrace crowdedOps = .ok ⟨4098, some 0, 4097, 1⟩ := rfl
  have hinp : (range 4096).map (fun j => (⟨0, false, (crowdedLog (0 + j)).dataPtr⟩ : Access)) =
      ((range 4096).map (· + 1)).map fun p => ⟨0, false, p⟩ := by
    rw [map_map]
    refine map_congr_left fun j hj => ?_
    simp [crowdedLog, mem_range.mp hj]
  rw [← hinp, accessesOf, hscan]
  simp only [crowdedOps, accessesFrom, Option.getD_some]
  rw [(opTensors_copyRun crowdedLog rfl (Nat.le_refl 0) (by decide)).1,
    (opTensors_copyRun crowdedLog rfl (Nat.le_refl 0) (by decide)).2,
    (opTensors_copyRun crowdedLog rfl (Nat.zero_le 4096) (by decide)).1,
    (opTensors_copyRun crowdedLog rfl (Nat.zero_le 4096) (by decide)).2,
    (opTensors_copyRun crowdedLog rfl (Nat.zero_le 4097) (by decide)).1]
  simp only [map_map, append_assoc]
  rfl

/-- The 4096 inputs of op 0 use up the pointer map, so the write of op 1 is lost: its
reader has no producer. -/
theorem traceWired_crowded : ∃ sc' trace,
    buildTraceFrom {} crowdedLog crowdedOps = .built sc' trace ∧
      (∃ o ∈ trace.occurrences, o.op = 2 ∧ o.isOutput = false ∧ o.producer = none ∧
        LastWriteBefore (accessed trace.occurrences) 2 o.tensor.dataPtr 1) ∧
      ¬ trace.WellWired (envOf {} crowdedOps).edgeCap := by
  obtain ⟨sc', trace, h⟩ := buildTraceFrom_total {} crowdedLog
    (show scanTrace crowdedOps = .ok ⟨4098, some 0, 4097, 1⟩ from rfl) (by decide) (by decide)
  obtain ⟨start, st, hrun⟩ := built_run .init h
  have haccess : accessed trace.occurrences = accessesOf crowdedLog crowdedOps := hrun.accesses_eq
  have hread : (⟨2, false, 4097⟩ : Access) ∈ accessesOf crowdedLog crowdedOps := by
    rw [crowded_accesses]
    simp
  obtain ⟨o, ho, hoa⟩ := mem_map.mp (hrun.accesses_eq ▸ hread)
  obtain ⟨hop, hin, haddr⟩ : o.op = 2 ∧ o.isOutput = false ∧ o.tensor.dataPtr = 4097 :=
    ⟨congrArg Access.op hoa, congrArg Access.isOutput hoa, congrArg Access.addr hoa⟩
  have hkeys : (keyScan (envOf {} crowdedOps) (accessesOf crowdedLog crowdedOps)).keys =
      (range 4096).map (· + 1) := by
    have hcells : (envOf {} crowdedOps).mask + 1 = 4096 := by decide
    rw [crowded_accesses]
    refine keyScan_crowd 0 _ (by simp) (nodup_range.map fun _ _ => Nat.succ.inj) ?_ ?_
    · rw [hcells, length_map, length_range]
    · rw [length_map, length_range]
      decide
  have hnone : o.producer = none := by
    rw [hrun.producer ho hin (by omega), hkeys, haddr, if_neg (by simp)]
  have hlast : LastWriteBefore (accessed trace.occurrences) 2 o.tensor.dataPtr 1 := by
    rw [haccess, haddr]
    refine ⟨by decide, ⟨⟨1, true, 4097⟩, ?_, rfl, rfl, rfl⟩, fun k' h1 h2 => by omega⟩
    rw [crowded_accesses]
    simp
  refine ⟨sc', trace, h, ⟨o, ho, hop, hin, hnone, hlast⟩, fun hwired => ?_⟩
  have hfound := (hwired.producers o ho hin (by omega) 1).mpr (by rw [hop]; exact hlast)
  rw [hnone] at hfound
  cases hfound

end Crucible
