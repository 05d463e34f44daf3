import Crucible.TraceRun

/-! # Producers and edges

The builder resolves an input to the last op that wrote its address, as far as the
pointer map holds the address.  `keyScan` says, from the accesses of the trace and
the two capacities alone, which addresses the map holds.  `Wired` is the loop invariant that
ties the map to the accesses, and `EdgesOk` the one that ties the edges to the producers.
-/
namespace Crucible
open List Function
open OpenAddressing BoundedMap

/-! ### Writers and recorded addresses -/

def lastWriter (accesses : List Access) (addr : Nat) : Option Nat :=
  accesses.foldl (fun writer a => if a.isOutput ∧ a.addr = addr then some a.op else writer) none

theorem lastWriter_append (accesses : List Access) (a : Access) (addr : Nat) :
    lastWriter (accesses ++ [a]) addr =
      if a.isOutput ∧ a.addr = addr then some a.op else lastWriter accesses addr := by
  simp only [lastWriter, foldl_append, foldl_cons, foldl_nil]

/-- What the pointer map and the slot counter depend on. -/
structure KeyScan where
  keys : List Nat := []
  writer : Nat → Option Nat := fun _ => none
  used : Nat := 0

/-- One access of the scan.  An input is recorded while nobody wrote its address and a
slot is left.  An output is recorded always, and takes a slot unless its address was
touched by another op. -/
def recordAccess (mapCap slotCap : Nat) (s : KeyScan) (a : Access) : KeyScan :=
  if a.addr = 0 then s
  else if a.isOutput then
    if a.addr ∈ s.keys ∧ s.writer a.addr ≠ some a.op then
      { s with writer := update s.writer a.addr (some a.op) }
    else
      { keys := addKey mapCap s.keys a.addr
        writer := update s.writer a.addr (some a.op)
        used := if s.used < slotCap then s.used + 1 else s.used }
  else if (a.addr ∈ s.keys → s.writer a.addr = none) ∧ s.used < slotCap then
    { s with keys := addKey mapCap s.keys a.addr, used := s.used + 1 }
  else s

section Record
variable {mapCap slotCap : Nat} {s : KeyScan} {a : Access}

theorem record_null (h : a.addr = 0) : recordAccess mapCap slotCap s a = s := by
  rw [recordAccess, if_pos h]

theorem record_input_skip (hin : a.isOutput = false)
    (h : ¬ ((a.addr ∈ s.keys → s.writer a.addr = none) ∧ s.used < slotCap)) :
    recordAccess mapCap slotCap s a = s := by
  unfold recordAccess
  rw [hin, if_neg Bool.false_ne_true, if_neg h, ite_self]

theorem record_input_new (mapCap slotCap : Nat) (s : KeyScan) (a : Access) (hne : a.addr ≠ 0)
    (hin : a.isOutput = false)
    (h : (a.addr ∈ s.keys → s.writer a.addr = none) ∧ s.used < slotCap) :
    recordAccess mapCap slotCap s a =
      { s with keys := addKey mapCap s.keys a.addr, used := s.used + 1 } := by
  unfold recordAccess
  rw [if_neg hne, hin, if_neg Bool.false_ne_true, if_pos h]

theorem record_output_alias (mapCap slotCap : Nat) (s : KeyScan) (a : Access) (hne : a.addr ≠ 0)
    (hout : a.isOutput = true)
    (h : a.addr ∈ s.keys ∧ s.writer a.addr ≠ some a.op) :
    recordAccess mapCap slotCap s a = { s with writer := update s.writer a.addr (some a.op) } := by
  unfold recordAccess
  rw [if_neg hne, if_pos hout, if_pos h]

theorem record_output_new (mapCap slotCap : Nat) (s : KeyScan) (a : Access) (hne : a.addr ≠ 0)
    (hout : a.isOutput = true)
    (h : a.addr ∈ s.keys → s.writer a.addr = some a.op) :
    recordAccess mapCap slotCap s a =
      { keys := addKey mapCap s.keys a.addr
        writer := update s.writer a.addr (some a.op)
        used := if s.used < slotCap then s.used + 1 else s.used } := by
  unfold recordAccess
  rw [if_neg hne, if_pos hout, if_neg fun hc => hc.2 (h hc.1)]

end Record

def keyScan (env : BuildEnv) (accesses : List Access) : KeyScan :=
  accesses.foldl (recordAccess (env.mask + 1) env.slotCap) {}

theorem keyScan_append (env : BuildEnv) (accesses : List Access) (a : Access) :
    keyScan env (accesses ++ [a]) =
      recordAccess (env.mask + 1) env.slotCap (keyScan env accesses) a := by
  simp only [keyScan, foldl_append, foldl_cons, foldl_nil]

variable {addr i : Nat}

theorem keyScan_writer (env : BuildEnv) (accesses : List Access) (haddr : addr ≠ 0) :
    (keyScan env accesses).writer addr = lastWriter accesses addr := by
  induction accesses using reverseRecOn with
  | nil => rfl
  | append_singleton as a ih =>
    rw [keyScan_append, lastWriter_append, ← ih]
    unfold recordAccess
    by_cases hzero : a.addr = 0
    · simp [hzero, haddr.symm]
    · cases hout : a.isOutput with
      | false => simp [hzero]; split <;> rfl
      | true =>
        simp only [if_neg hzero, if_true, true_and]
        have hupd : update (keyScan env as).writer a.addr (some a.op) addr =
            if a.addr = addr then some a.op else (keyScan env as).writer addr := by
          rw [update_apply]
          simp only [eq_comm]
        split <;> exact hupd

variable {accesses : List Access}

theorem lastWriter_none :
    lastWriter accesses addr = none ↔ ∀ a ∈ accesses, ¬ (a.isOutput ∧ a.addr = addr) := by
  induction accesses using reverseRecOn with
  | nil => simp [lastWriter]
  | append_singleton as a ih =>
    rw [lastWriter_append, forall_mem_append, forall_mem_singleton]
    by_cases h : a.isOutput ∧ a.addr = addr
    · rw [if_pos h]
      exact ⟨nofun, fun hall => absurd h hall.2⟩
    · rw [if_neg h, ih]
      exact ⟨fun hall => ⟨hall, h⟩, And.left⟩

/-- The last writer among the ops before `i`. -/
def writerBefore (accesses : List Access) (i addr : Nat) : Option Nat :=
  lastWriter (accesses.filter fun a => a.op < i) addr

theorem writerBefore_append {a : Access} (h : i ≤ a.op)
    (addr : Nat) : writerBefore (accesses ++ [a]) i addr = writerBefore accesses i addr := by
  have hnot : ¬ a.op < i := not_lt.mpr h
  simp [writerBefore, filter_append, hnot]

theorem writerBefore_none (i : Nat)
    (h : lastWriter accesses addr = none) : writerBefore accesses i addr = none :=
  lastWriter_none.mpr fun a ha => lastWriter_none.mp h a (mem_filter.mp ha).1

theorem lastWriter_filter (h : ∀ a ∈ accesses, a.isOutput → a.op < i) (addr : Nat) :
    writerBefore accesses i addr = lastWriter accesses addr := by
  unfold writerBefore
  induction accesses using reverseRecOn with
  | nil => rfl
  | append_singleton as a ih =>
    have hprev := ih fun x hx => h x (mem_append_left _ hx)
    have ha := h a (mem_append_right _ (mem_singleton_self a))
    rw [filter_append, lastWriter_append, ← hprev]
    by_cases hlt : a.op < i
    · rw [filter_cons_of_pos (by simpa using hlt), filter_nil, lastWriter_append]
    · have hin : ¬ (a.isOutput ∧ a.addr = addr) := fun hc => hlt (ha hc.1)
      rw [filter_cons_of_neg (by simpa using hlt), filter_nil, append_nil, if_neg hin]

/-! ### The loop invariant -/

def accessed (hist : List Occurrence) : List Access := hist.map Occurrence.access

theorem accessed_append (hist : List Occurrence) (o : Occurrence) :
    accessed (hist ++ [o]) = accessed hist ++ [o.access] := by
  simp [accessed]

/-- The map holds the recorded addresses with their last writers, and every input got
the last op before it that wrote its address, as far as the address is recorded. -/
structure Wired (env : BuildEnv) (m : BoundedMap Nat PtrLookup) (i : Nat) (outputs : Bool)
    (hist : List Occurrence) (st : BuildState) : Prop where
  rep : MapRep env.gen env.mask st.map m
  keys_eq : m.keys = (keyScan env (accessed hist)).keys
  used_eq : st.nextSlot = (keyScan env (accessed hist)).used
  zero_notMem : 0 ∉ m.keys
  writer_eq : ∀ p ∈ m.keys, (m.val p).opIndex = lastWriter (accessed hist) p
  dropped : ∀ p, p ≠ 0 → p ∉ m.keys → lastWriter (accessed hist) p ≠ none →
    env.mask + 1 ≤ m.keys.length
  ops_le : ∀ o ∈ hist, o.op ≤ i
  writes_lt : outputs = false → ∀ o ∈ hist, o.isOutput = true → o.op < i
  producers : ∀ o ∈ hist, o.isOutput = false → o.tensor.dataPtr ≠ 0 →
    o.producer = if o.tensor.dataPtr ∈ m.keys then
      writerBefore (accessed hist) o.op o.tensor.dataPtr else none

namespace Wired
variable {env : BuildEnv} {m : BoundedMap Nat PtrLookup} {i : Nat} {outputs : Bool}
  {hist : List Occurrence} {st st' : BuildState}

theorem no_writer (h : Wired env m i outputs hist st) {p : Nat} (hp : p ≠ 0) (hnot : p ∉ m.keys)
    (hroom : m.keys.length < env.mask + 1) : lastWriter (accessed hist) p = none := by
  by_contra hne
  exact absurd (h.dropped p hp hnot hne) (by omega)

theorem producers_append (h : Wired env m i outputs hist st) (o : Occurrence) (ho : o.op = i)
    {keys : List Nat} (hkeys : keys = addKey (env.mask + 1) m.keys o.tensor.dataPtr ∨
      keys = m.keys) :
    ∀ x ∈ hist, x.isOutput = false → x.tensor.dataPtr ≠ 0 →
      x.producer = if x.tensor.dataPtr ∈ keys then
        writerBefore (accessed (hist ++ [o])) x.op x.tensor.dataPtr else none := by
  intro x hx hin hne
  have hle : x.op ≤ o.access.op := by
    change x.op ≤ o.op
    rw [ho]
    exact h.ops_le x hx
  rw [accessed_append, writerBefore_append hle, h.producers x hx hin hne]
  by_cases hold : x.tensor.dataPtr ∈ m.keys
  · have hnew : x.tensor.dataPtr ∈ keys := by
      rcases hkeys with rfl | rfl
      · exact mem_addKey.mpr (.inl hold)
      · exact hold
    rw [if_pos hold, if_pos hnew]
  · rw [if_neg hold]
    by_cases hnew : x.tensor.dataPtr ∈ keys
    · -- a newly recorded address had no writer before
      rw [if_pos hnew]
      rcases hkeys with rfl | rfl
      · rcases mem_addKey.mp hnew with hin' | ⟨-, hroom⟩
        · exact absurd hin' hold
        · exact (writerBefore_none _ (h.no_writer hne hold hroom)).symm
      · exact absurd hnew hold
    · rw [if_neg hnew]

variable {o : Occurrence}

theorem ops_le_append (h : Wired env m i outputs hist st) (ho : o.op = i) :
    ∀ x ∈ hist ++ [o], x.op ≤ i :=
  forall_mem_append.mpr ⟨h.ops_le, forall_mem_singleton.mpr ho.le⟩

theorem lastWriter_input (ho : o.isOutput = false) (p : Nat) :
    lastWriter (accessed (hist ++ [o])) p = lastWriter (accessed hist) p := by
  rw [accessed_append, lastWriter_append, if_neg]
  rintro ⟨h, -⟩
  rw [Occurrence.access, ho] at h
  cases h

theorem writerBefore_input (h : Wired env m i false hist st) (ho : o.op = i)
    (p : Nat) : writerBefore (accessed (hist ++ [o])) i p = lastWriter (accessed hist) p := by
  rw [accessed_append, writerBefore_append (le_of_eq ho.symm), lastWriter_filter]
  intro a ha hout
  obtain ⟨x, hx, rfl⟩ := mem_map.mp ha
  exact h.writes_lt rfl x hx hout

theorem input_same (h : Wired env m i false hist st) (ho : o.op = i)
    (hin : o.isOutput = false) (hmap : st'.map = st.map) (hslot : st'.nextSlot = st.nextSlot)
    (hscan : keyScan env (accessed (hist ++ [o])) = keyScan env (accessed hist))
    (hprod : o.tensor.dataPtr ≠ 0 → o.producer = if o.tensor.dataPtr ∈ m.keys then
      lastWriter (accessed hist) o.tensor.dataPtr else none) :
    Wired env m i false (hist ++ [o]) st' where
  rep := by rw [hmap]; exact h.rep
  keys_eq := by rw [hscan]; exact h.keys_eq
  used_eq := by rw [hscan, hslot]; exact h.used_eq
  zero_notMem := h.zero_notMem
  writer_eq := fun p hp => by rw [lastWriter_input hin]; exact h.writer_eq p hp
  dropped := fun p hp hnot => by rw [lastWriter_input hin]; exact h.dropped p hp hnot
  ops_le := h.ops_le_append ho
  writes_lt := fun _ => forall_mem_append.mpr ⟨h.writes_lt rfl, by simp [hin]⟩
  producers := by
    refine forall_mem_append.mpr ⟨h.producers_append o ho (.inr rfl), ?_⟩
    refine forall_mem_singleton.mpr fun _ hne => ?_
    rw [ho, h.writerBefore_input ho]
    exact hprod hne

theorem output_null (h : Wired env m i true hist st) (ho : o.op = i)
    (hout : o.isOutput = true) (hnull : o.tensor.dataPtr = 0) :
    Wired env m i true (hist ++ [o]) st := by
  have hscan : keyScan env (accessed (hist ++ [o])) = keyScan env (accessed hist) := by
    rw [accessed_append, keyScan_append, record_null hnull]
  have hlast : ∀ p, p ≠ 0 → lastWriter (accessed (hist ++ [o])) p =
      lastWriter (accessed hist) p := by
    intro p hp
    rw [accessed_append, lastWriter_append, if_neg]
    rintro ⟨-, haddr⟩
    exact hp (haddr.symm.trans hnull)
  refine ⟨h.rep, by rw [hscan]; exact h.keys_eq, by rw [hscan]; exact h.used_eq, h.zero_notMem,
    fun p hp => ?_, fun p hp hnot => ?_, h.ops_le_append ho, by simp,
    forall_mem_append.mpr ⟨h.producers_append o ho (.inr rfl), by simp [hout]⟩⟩
  · rw [hlast p fun heq => h.zero_notMem (heq ▸ hp)]
    exact h.writer_eq p hp
  · rw [hlast p hp]
    exact h.dropped p hp hnot

theorem put_step (h : Wired env m i outputs hist st) {v : PtrLookup}
    (ho : o.op = i) (hside : o.isOutput = outputs) (hp : o.tensor.dataPtr ≠ 0)
    (hrep : MapRep env.gen env.mask st'.map (m.put (env.mask + 1) o.tensor.dataPtr v))
    (hkeys : (keyScan env (accessed (hist ++ [o]))).keys =
      addKey (env.mask + 1) m.keys o.tensor.dataPtr)
    (hused : st'.nextSlot = (keyScan env (accessed (hist ++ [o]))).used)
    (hwrit : o.tensor.dataPtr ∈ addKey (env.mask + 1) m.keys o.tensor.dataPtr →
      v.opIndex = lastWriter (accessed (hist ++ [o])) o.tensor.dataPtr)
    (hprod : outputs = false → o.producer = none ∧
      (o.tensor.dataPtr ∈ addKey (env.mask + 1) m.keys o.tensor.dataPtr →
        lastWriter (accessed hist) o.tensor.dataPtr = none)) :
    Wired env (m.put (env.mask + 1) o.tensor.dataPtr v) i outputs (hist ++ [o]) st' := by
  have hlast : ∀ p, p ≠ o.tensor.dataPtr →
      lastWriter (accessed (hist ++ [o])) p = lastWriter (accessed hist) p := by
    intro p hne
    rw [accessed_append, lastWriter_append, if_neg]
    rintro ⟨-, haddr⟩
    exact hne haddr.symm
  refine ⟨hrep, by rw [hkeys, put_keys], hused, ?_, ?_, ?_, h.ops_le_append ho, ?_, ?_⟩
  · rw [put_keys, mem_addKey]
    rintro (hz | ⟨hz, -⟩)
    · exact h.zero_notMem hz
    · exact hp hz.symm
  · intro p hpmem
    rw [put_val hpmem]
    rw [put_keys] at hpmem
    by_cases heq : p = o.tensor.dataPtr
    · subst heq
      rw [if_pos rfl, hwrit hpmem]
    · rw [if_neg heq, hlast p heq]
      rcases mem_addKey.mp hpmem with hold | ⟨hnew, -⟩
      · exact h.writer_eq p hold
      · exact absurd hnew heq
  · intro p hpne hnot hw
    rw [put_keys] at hnot ⊢
    have hfull : env.mask + 1 ≤ m.keys.length := by
      by_cases heq : p = o.tensor.dataPtr
      · by_contra hroom
        exact hnot (mem_addKey.mpr (.inr ⟨heq, by omega⟩))
      · rw [hlast p heq] at hw
        exact h.dropped p hpne (fun hin => hnot (mem_addKey.mpr (.inl hin))) hw
    rw [addKey_full _ hfull]
    exact hfull
  · exact fun hfal => forall_mem_append.mpr ⟨h.writes_lt hfal, by simp [hside, hfal]⟩
  · rw [put_keys]
    refine forall_mem_append.mpr ⟨h.producers_append o ho (.inl rfl), ?_⟩
    refine forall_mem_singleton.mpr fun hin _ => ?_
    obtain rfl : outputs = false := hside.symm.trans hin
    obtain ⟨hnone, hno⟩ := hprod rfl
    rw [hnone, ho, h.writerBefore_input ho]
    split
    case isTrue hmem => exact (hno hmem).symm
    case isFalse => rfl

end Wired

theorem Wired.scan_writer {env : BuildEnv} {m : BoundedMap Nat PtrLookup}
    {outputs : Bool} {hist : List Occurrence} {st : BuildState} (h : Wired env m i outputs hist st)
    {p : Nat} (hp : p ∈ (keyScan env (accessed hist)).keys) :
    p ∈ m.keys ∧ (keyScan env (accessed hist)).writer p = (m.val p).opIndex := by
  rw [← h.keys_eq] at hp
  have hne : p ≠ 0 := fun hz => h.zero_notMem (hz ▸ hp)
  exact ⟨hp, by rw [keyScan_writer env _ hne, h.writer_eq p hp]⟩

section Kept
variable {env : BuildEnv} {m : BoundedMap Nat PtrLookup} {i j : Nat} {tensor : TensorMeta}
  {hist : List Occurrence} {st st' : BuildState} {producer : Option Nat} {slot : Nat}

theorem Wired.input (hmask : PowMask env.mask) (hw : Wired env m i false hist st)
    (h : resolveInput env i j tensor st = some (st', producer, slot)) :
    ∃ m', Wired env m' i false (hist ++ [⟨i, false, j, tensor, producer, slot⟩]) st' := by
  rcases resolveInput_cases hmask hw.rep h with
    ⟨src, hne, hmem, hsrc, rfl, rfl, -, rfl⟩ |
    ⟨hne, hnone, hroom, rfl, rfl, map', hrep, rfl⟩ | ⟨rfl, rfl, rfl, hwhy⟩
  · refine ⟨m, hw.input_same rfl rfl (touch_map ..) (touch_nextSlot ..) ?_ fun _ => ?_⟩
    · -- the address is recorded and has a writer, so the scan passes over the input
      rw [accessed_append, keyScan_append]
      refine record_input_skip rfl fun hc => ?_
      have hin : tensor.dataPtr ∈ (keyScan env (accessed hist)).keys := hw.keys_eq ▸ hmem
      have hcon := hc.1 hin
      change (keyScan env (accessed hist)).writer tensor.dataPtr = none at hcon
      rw [(hw.scan_writer hin).2, hsrc] at hcon
      cases hcon
    · rw [if_pos hmem, ← hw.writer_eq _ hmem, hsrc]
  · have hwrit : tensor.dataPtr ∈ addKey (env.mask + 1) m.keys tensor.dataPtr →
        lastWriter (accessed hist) tensor.dataPtr = none := by
      intro hin
      by_cases hold : tensor.dataPtr ∈ m.keys
      · rw [← hw.writer_eq _ hold, hnone hold]
      · rcases mem_addKey.mp hin with hin | ⟨-, hfree⟩
        · exact absurd hin hold
        · exact hw.no_writer hne hold hfree
    have hrec := record_input_new (env.mask + 1) env.slotCap (keyScan env (accessed hist))
      ⟨i, false, tensor.dataPtr⟩ hne rfl
      ⟨fun hin => (hw.scan_writer hin).2.trans (hnone (hw.scan_writer hin).1), hw.used_eq ▸ hroom⟩
    refine ⟨_, hw.put_step rfl rfl hne hrep ?_ ?_ (fun hin => ?_) fun _ => ⟨rfl, hwrit⟩⟩
    · rw [accessed_append, keyScan_append]
      exact (congrArg KeyScan.keys hrec).trans (by rw [← hw.keys_eq])
    · rw [accessed_append, keyScan_append]
      exact (congrArg (· + 1) hw.used_eq).trans (congrArg KeyScan.used hrec).symm
    · rw [Wired.lastWriter_input rfl, hwrit hin]
  · refine ⟨m, hw.input_same rfl rfl rfl rfl ?_ fun hne => ?_⟩
    · rw [accessed_append, keyScan_append]
      by_cases hne : tensor.dataPtr = 0
      · exact record_null hne
      · refine record_input_skip rfl fun hc => ?_
        have := hc.2
        rw [← hw.used_eq] at this
        omega
    · split
      · rename_i hmem
        rw [← hw.writer_eq _ hmem]
        exact ((hwhy.resolve_left hne).1 hmem).symm
      · rfl

theorem Wired.lastWriter_output (slot : Nat) :
    lastWriter (accessed (hist ++ [⟨i, true, j, tensor, none, slot⟩])) tensor.dataPtr = some i := by
  rw [accessed_append, lastWriter_append, if_pos ⟨rfl, rfl⟩]
  rfl

theorem Wired.output_new {s : Nat} (hw : Wired env m i true hist st) (hne : tensor.dataPtr ≠ 0)
    (hsame : tensor.dataPtr ∈ m.keys → (m.val tensor.dataPtr).opIndex = some i)
    (hrep : MapRep env.gen env.mask st'.map (m.put (env.mask + 1) tensor.dataPtr
      { opIndex := some i, port := portOf j, slotId := s }))
    (hnext : st'.nextSlot =
      if st.nextSlot < env.slotCap then st.nextSlot + 1 else st.nextSlot) :
    ∃ m', Wired env m' i true (hist ++ [⟨i, true, j, tensor, none, slot⟩]) st' := by
  have hrec := record_output_new (env.mask + 1) env.slotCap (keyScan env (accessed hist))
    ⟨i, true, tensor.dataPtr⟩ hne rfl
    fun hin => (hw.scan_writer hin).2.trans (hsame (hw.scan_writer hin).1)
  refine ⟨_, hw.put_step rfl rfl hne hrep ?_ ?_ (fun _ => (lastWriter_output _).symm) (by simp)⟩
  · rw [accessed_append, keyScan_append]
    exact (congrArg KeyScan.keys hrec).trans (by rw [← hw.keys_eq])
  · rw [accessed_append, keyScan_append, hnext, hw.used_eq]
    exact (congrArg KeyScan.used hrec).symm

theorem Wired.output (hmask : PowMask env.mask) (hw : Wired env m i true hist st)
    (h : resolveOutput env i j tensor st = some (st', slot)) :
    ∃ m', Wired env m' i true (hist ++ [⟨i, true, j, tensor, none, slot⟩]) st' := by
  rcases resolveOutput_cases hmask hw.rep h with
    ⟨hnull, rfl, rfl⟩ | ⟨hne, hmem, hoth, rfl, -, map', hrep, rfl⟩ |
    ⟨hne, hsame, hroom, rfl, map', hrep, rfl⟩ | ⟨hne, hsame, hfull, rfl, map', hrep, rfl⟩
  · exact ⟨m, hw.output_null rfl rfl hnull⟩
  · have hin : tensor.dataPtr ∈ (keyScan env (accessed hist)).keys := hw.keys_eq ▸ hmem
    have hrec := record_output_alias (env.mask + 1) env.slotCap (keyScan env (accessed hist))
      ⟨i, true, tensor.dataPtr⟩ hne rfl
      ⟨hin, fun heq => hoth ((hw.scan_writer hin).2.symm.trans heq)⟩
    refine ⟨_, hw.put_step rfl rfl hne (by rw [touch_map]; exact hrep) ?_ ?_
      (fun _ => (lastWriter_output _).symm) (by simp)⟩
    · rw [accessed_append, keyScan_append]
      refine (congrArg KeyScan.keys hrec).trans (hw.keys_eq.symm.trans ?_)
      rw [addKey, if_pos hmem]
    · rw [accessed_append, keyScan_append, touch_nextSlot]
      exact hw.used_eq.trans (congrArg KeyScan.used hrec).symm
  · exact hw.output_new hne hsame hrep (if_pos hroom).symm
  · exact hw.output_new hne hsame hrep (if_neg hfull.not_gt).symm

end Kept

/-- **The loop keeps the wiring.** -/
theorem kept_wired {env : BuildEnv} (hmask : PowMask env.mask) :
    Kept env fun i outputs hist st => ∃ m, Wired env m i outputs hist st where
  input := fun _ _ _ _ _ _ _ _ ⟨_, hw⟩ h => hw.input hmask h
  toOutputs := fun _ _ _ ⟨m, hw⟩ => ⟨m, { hw with writes_lt := by simp }⟩
  output := fun _ _ _ _ _ _ _ ⟨_, hw⟩ h => hw.output hmask h
  nextOp := fun _ _ _ ⟨m, hw⟩ =>
    ⟨m, { hw with
      ops_le := fun o ho => Nat.le_succ_of_le (hw.ops_le o ho)
      writes_lt := fun _ o ho _ => Nat.lt_succ_of_le (hw.ops_le o ho) }⟩

/-! ### Edges -/

/-- Source, destination and destination port of an edge. -/
def Edge.flow (e : Edge) : Nat × Nat × Nat := (e.src, e.dst, e.dstPort)

def flowsOf (kind : EdgeKind) (edges : List Edge) : List (Nat × Nat × Nat) :=
  (edges.filter fun e => e.kind = kind).map Edge.flow

/-- The data-flow edge that an occurrence calls for. -/
def Occurrence.flow (o : Occurrence) : Option (Nat × Nat × Nat) :=
  if o.isOutput then none else o.producer.map fun src => (src, o.op, portOf o.port)

/-- The edges emitted so far: one data-flow edge for each input with a producer, in
order, and every edge goes forward. -/
structure EdgesOk (env : BuildEnv) (m : BoundedMap Nat PtrLookup) (i : Nat) (outputs : Bool)
    (hist : List Occurrence) (st : BuildState) : Prop where
  rep : MapRep env.gen env.mask st.map m
  writer_lt : ∀ p ∈ m.keys, ∀ k, (m.val p).opIndex = some k → k < i ∨ (outputs = true ∧ k = i)
  flows : flowsOf .dataFlow st.edges = hist.filterMap Occurrence.flow
  forward : ∀ e ∈ st.edges, e.src < e.dst
  count_le : st.edges.length ≤ hist.length
  cap_le : st.edges.length ≤ env.edgeCap

theorem flowsOf_append (kind : EdgeKind) (xs ys : List Edge) :
    flowsOf kind (xs ++ ys) = flowsOf kind xs ++ flowsOf kind ys := by
  simp [flowsOf]

section Edges
variable {env : BuildEnv} {m : BoundedMap Nat PtrLookup} {i : Nat} {outputs : Bool}
  {hist : List Occurrence} {st st' : BuildState}

theorem EdgesOk.quiet (h : EdgesOk env m i outputs hist st) {o : Occurrence}
    {m' : BoundedMap Nat PtrLookup} (hrep : MapRep env.gen env.mask st'.map m')
    (hwrit : ∀ p ∈ m'.keys, ∀ k, (m'.val p).opIndex = some k → k < i ∨ (outputs = true ∧ k = i))
    (hedg : st'.edges = st.edges) (hflow : o.flow = none) :
    EdgesOk env m' i outputs (hist ++ [o]) st' where
  rep := hrep
  writer_lt := hwrit
  flows := by
    rw [hedg, h.flows]
    simp [hflow]
  forward := by rw [hedg]; exact h.forward
  count_le := by
    rw [hedg, length_append]
    exact Nat.le_add_right_of_le h.count_le
  cap_le := by rw [hedg]; exact h.cap_le

theorem EdgesOk.emit (h : EdgesOk env m i outputs hist st) {o : Occurrence} {e : Edge}
    {m' : BoundedMap Nat PtrLookup} (hrep : MapRep env.gen env.mask st'.map m')
    (hwrit : ∀ p ∈ m'.keys, ∀ k, (m'.val p).opIndex = some k → k < i ∨ (outputs = true ∧ k = i))
    (hedg : st'.edges = st.edges ++ [e]) (hcap : st.edges.length < env.edgeCap)
    (hlt : e.src < e.dst) (hflow : flowsOf .dataFlow [e] = [o].filterMap Occurrence.flow) :
    EdgesOk env m' i outputs (hist ++ [o]) st' where
  rep := hrep
  writer_lt := hwrit
  flows := by rw [hedg, flowsOf_append, h.flows, hflow, filterMap_append]
  forward := by
    rw [hedg]
    exact forall_mem_append.mpr ⟨h.forward, forall_mem_singleton.mpr hlt⟩
  count_le := by
    rw [hedg, length_append, length_append]
    exact Nat.add_le_add_right h.count_le 1
  cap_le := by
    rw [hedg, length_append]
    exact hcap

theorem EdgesOk.writer_put (h : EdgesOk env m i outputs hist st) {p : Nat} {v : PtrLookup}
    (hv : ∀ k, v.opIndex = some k → k < i ∨ (outputs = true ∧ k = i)) :
    ∀ q ∈ (m.put (env.mask + 1) p v).keys, ∀ k,
      ((m.put (env.mask + 1) p v).val q).opIndex = some k → k < i ∨ (outputs = true ∧ k = i) := by
  intro q hq k hk
  rw [put_val hq] at hk
  by_cases heq : q = p
  · rw [if_pos heq] at hk
    exact hv k hk
  · rw [if_neg heq] at hk
    rw [put_keys] at hq
    rcases mem_addKey.mp hq with hold | ⟨hnew, -⟩
    · exact h.writer_lt q hold k hk
    · exact absurd hnew heq

theorem kept_edges (hmask : PowMask env.mask) :
    Kept env fun i outputs hist st => ∃ m, EdgesOk env m i outputs hist st where
  input := by
    rintro i j tensor hist st st' producer slot ⟨m, he⟩ h
    rcases resolveInput_cases hmask he.rep h with
      ⟨src, -, hmem, hsrc, rfl, rfl, hcap, rfl⟩ | ⟨-, -, -, rfl, rfl, map', hrep, rfl⟩ |
      ⟨rfl, rfl, rfl, -⟩
    · have hlt : src < i := by
        rcases he.writer_lt _ hmem src hsrc with hlt | ⟨hfal, -⟩
        · exact hlt
        · cases hfal
      exact ⟨m, he.emit (by rw [touch_map]; exact he.rep) he.writer_lt
        (touch_edges ..) hcap hlt rfl⟩
    · exact ⟨_, he.quiet hrep (he.writer_put fun k hk => by cases hk) rfl rfl⟩
    · exact ⟨m, he.quiet he.rep he.writer_lt rfl rfl⟩
  toOutputs := fun _ _ _ ⟨m, he⟩ => ⟨m, { he with
    writer_lt := fun p hp k hk => (he.writer_lt p hp k hk).imp_right fun h => by cases h.1 }⟩
  output := by
    rintro i j tensor hist st st' slot ⟨m, he⟩ h
    have hself : ∀ k, some i = some k → k < i ∨ (true = true ∧ k = i) :=
      fun k hk => .inr ⟨rfl, (Option.some.inj hk).symm⟩
    rcases resolveOutput_cases hmask he.rep h with
      ⟨-, rfl, rfl⟩ | ⟨-, hmem, hoth, rfl, hcap, map', hrep, rfl⟩ |
      ⟨-, -, -, rfl, map', hrep, rfl⟩ | ⟨-, -, -, rfl, map', hrep, rfl⟩
    · exact ⟨m, he.quiet he.rep he.writer_lt rfl rfl⟩
    · cases hold : (m.val tensor.dataPtr).opIndex with
      | none =>
        refine ⟨_, he.quiet (by rw [touch_map]; exact hrep) (he.writer_put hself) ?_ rfl⟩
        rw [touch_edges, aliasEdges, hold]
        exact append_nil _
      | some src =>
        have hlt : src < i := by
          rcases he.writer_lt _ hmem src hold with hlt | ⟨-, heq⟩
          · exact hlt
          · exact absurd (hold.trans (congrArg some heq)) hoth
        refine ⟨_, he.emit (e := ⟨src, i, (m.val tensor.dataPtr).port, portOf j, .alias⟩)
          (by rw [touch_map]; exact hrep) (he.writer_put hself) ?_ (hcap (by rw [hold]; rfl))
          hlt rfl⟩
        rw [touch_edges, aliasEdges, hold]
        rfl
    · exact ⟨_, he.quiet hrep (he.writer_put hself) rfl rfl⟩
    · exact ⟨_, he.quiet hrep (he.writer_put hself) rfl rfl⟩
  nextOp := fun i _ _ ⟨m, he⟩ => ⟨m, { he with
    writer_lt := fun p hp k hk => .inl <| by
      rcases he.writer_lt p hp k hk with hlt | ⟨-, rfl⟩
      · exact Nat.lt_succ_of_lt hlt
      · exact lt_add_one k }⟩

end Edges
end Crucible
