import Crucible.LinearProbing

/-! # The grow-only set

`GSet` keeps its values in an array of slots under linear probing.  A gossiped array is merged
by adding the value of each occupied slot to a copy, which replaces the set only if every value
found room.  Its values may repeat and may lie off their probe sequences.  The own array is the
table of a finite set at all times (`Holding`), and everything that is observable of it is a
function of that set.
-/
namespace Crucible
open List

open OpenAddressing

/-- `BoundedHashSetState::Slot`. -/
structure SetSlot (T : Type) where
  occupied : Bool := false
  value : T
deriving DecidableEq

/-- `BoundedHashSetState`.  Of the slots those below the capacity exist. -/
structure BoundedHashSetState (T : Type) where
  slots : Nat → SetSlot T
  count : Nat := 0

namespace BoundedHashSetState

variable {T : Type} [DecidableEq T] (cap : Nat) (stableHash : T → Nat)

def slotAt (value : T) (n : Nat) : Nat := (stableHash value % cap + n) % cap

variable (s : BoundedHashSetState T)

def wellFormed : Bool :=
  (range cap).countP (fun i => (s.slots i).occupied) == s.count

/-- The loop of `contains` from probe `n` on. -/
def containsFrom (value : T) : Nat → Nat → Bool
  | _, 0 => false
  | n, left + 1 =>
    let idx := slotAt cap stableHash value n
    if (s.slots idx).occupied = false then false
    else if (s.slots idx).value = value then true
    else containsFrom value (n + 1) left

def contains (value : T) : Bool :=
  s.containsFrom cap stableHash value 0 cap

/-- The loop of `insert` from probe `n` on. -/
def insertFrom (value : T) : Nat → Nat → BoundedHashSetState T × Bool
  | _, 0 => (s, false)
  | n, left + 1 =>
    let idx := slotAt cap stableHash value n
    if (s.slots idx).occupied = true ∧ (s.slots idx).value = value then (s, true)
    else if (s.slots idx).occupied = false then
      if cap ≤ s.count then (s, false)
      else
        ({ slots := Function.update s.slots idx { occupied := true, value := value }
           count := s.count + 1 }, true)
    else insertFrom value (n + 1) left

def insert (value : T) : BoundedHashSetState T × Bool :=
  s.insertFrom cap stableHash value 0 cap

/-- The loop of `merge` over the slots of the other state. -/
def insertSlots (s : BoundedHashSetState T) : List (SetSlot T) → BoundedHashSetState T × Bool
  | [] => (s, true)
  | slot :: slots =>
    if slot.occupied then
      match s.insert cap stableHash slot.value with
      | (s', true) => s'.insertSlots slots
      | (s', false) => (s', false)
    else s.insertSlots slots

def merge (s other : BoundedHashSetState T) : BoundedHashSetState T × Bool :=
  if other.wellFormed cap then
    s.insertSlots cap stableHash ((range cap).map other.slots)
  else (s, false)

/-- `operator==`. -/
def equal (a b : BoundedHashSetState T) : Bool :=
  a.count == b.count &&
    (range cap).all fun i =>
      !(a.slots i).occupied || b.contains cap stableHash (a.slots i).value

end BoundedHashSetState

/-- What a `GSet` is told to do. -/
inductive GSetOp (T : Type) where
  | add (value : T)
  | merge (other : BoundedHashSetState T)

def BoundedHashSetState.keyOf {T : Type} (slot : SetSlot T) : Option T :=
  if slot.occupied then some slot.value else none

namespace GSet

variable {T : Type} [DecidableEq T] (cap : Nat) (stableHash : T → Nat)

/-- `commit_merge`: the target changes only if the merge of the copy succeeds. -/
def commitMerge (target incoming : BoundedHashSetState T) : BoundedHashSetState T × Bool :=
  match target.merge cap stableHash incoming with
  | (staged, true) => (staged, true)
  | (_, false) => (target, false)

/-- `GSet::add` and `GSet::merge`. -/
def step (s : BoundedHashSetState T) : GSetOp T → BoundedHashSetState T × Bool
  | .add value => s.insert cap stableHash value
  | .merge other => commitMerge cap stableHash s other

/-- The values that an operation brings: of a state, those of its occupied slots. -/
def offered : GSetOp T → List T
  | .add value => [value]
  | .merge other => ((range cap).map other.slots).filterMap BoundedHashSetState.keyOf

/-- A merged state counts its occupied slots correctly. -/
def WellFormed : GSetOp T → Prop
  | .add _ => True
  | .merge other => other.wellFormed cap = true

def run (s : BoundedHashSetState T) (ops : List (GSetOp T)) : BoundedHashSetState T :=
  ops.foldl (fun s op => (step cap stableHash s op).1) s

def received (s : BoundedHashSetState T) : List (GSetOp T) → List T
  | [] => []
  | op :: ops =>
    (if (step cap stableHash s op).2 then offered cap op else []) ++
      received (step cap stableHash s op).1 ops

def empty (blank : T) : BoundedHashSetState T := { slots := fun _ => { value := blank } }

end GSet

/-! ### The loops as searches -/

namespace BoundedHashSetState

variable {T : Type} [DecidableEq T] {cap : Nat} {stableHash : T → Nat}

def home (cap : Nat) (stableHash : T → Nat) (value : T) : Nat := stableHash value % cap

/-- The search that both loops make. -/
def locate (cap : Nat) (stableHash : T → Nat) (s : BoundedHashSetState T) (value : T) : Probe :=
  find keyOf (linear (home cap stableHash) cap) cap s.slots value

variable {slot : SetSlot T}

omit [DecidableEq T] in
theorem keyOf_free (h : slot.occupied = false) : keyOf slot = none := by
  rw [keyOf, h]
  exact if_neg Bool.false_ne_true

omit [DecidableEq T] in
theorem keyOf_occupied (h : slot.occupied = true) : keyOf slot = some slot.value := by
  rw [keyOf, h]
  exact if_pos rfl

omit [DecidableEq T] in
theorem slotAt_eq (value : T) (n : Nat) :
    slotAt cap stableHash value n = linear (home cap stableHash) cap value n := rfl

theorem containsFrom_eq (s : BoundedHashSetState T) (value : T) (n left : Nat) :
    s.containsFrom cap stableHash value n left =
      match search keyOf (linear (home cap stableHash) cap) s.slots value n left with
      | .hit _ => true
      | _ => false := by
  induction left generalizing n with
  | zero => rfl
  | succ left ih =>
    obtain ⟨slot, hslot⟩ : ∃ slot, s.slots (linear (home cap stableHash) cap value n) = slot :=
      ⟨_, rfl⟩
    simp only [containsFrom, search, slotAt_eq, hslot]
    cases hocc : slot.occupied with
    | false => rw [if_pos rfl, keyOf_free hocc]
    | true =>
      rw [if_neg (Bool.false_ne_true ·.symm), keyOf_occupied hocc]
      by_cases hval : slot.value = value
      · simp only [if_pos hval]
      · simp only [if_neg hval]
        exact ih (n + 1)

/-- What `insert` does with the outcome of the search. -/
def place (cap : Nat) (s : BoundedHashSetState T) (value : T) :
    Probe → BoundedHashSetState T × Bool
  | .hit _ => (s, true)
  | .free idx =>
    if cap ≤ s.count then (s, false)
    else
      ({ slots := Function.update s.slots idx { occupied := true, value := value }
         count := s.count + 1 }, true)
  | .full => (s, false)

theorem insertFrom_eq (s : BoundedHashSetState T) (value : T) (n left : Nat) :
    s.insertFrom cap stableHash value n left = s.place cap value
      (search keyOf (linear (home cap stableHash) cap) s.slots value n left) := by
  induction left generalizing n with
  | zero => rfl
  | succ left ih =>
    obtain ⟨slot, hslot⟩ : ∃ slot, s.slots (linear (home cap stableHash) cap value n) = slot :=
      ⟨_, rfl⟩
    simp only [insertFrom, search, slotAt_eq, hslot]
    cases hocc : slot.occupied with
    | false =>
      rw [keyOf_free hocc]
      rfl
    | true =>
      rw [keyOf_occupied hocc]
      by_cases hval : slot.value = value
      · simp only [hval, and_self, if_true, place]
      · simp only [hval, and_false, if_false, Bool.true_eq_false]
        exact ih (n + 1)

/-! ### The finite set that a table holds -/

theorem contains_eq (s : BoundedHashSetState T) (value : T) : s.contains cap stableHash value =
      match s.locate cap stableHash value with
      | .hit _ => true
      | _ => false :=
  containsFrom_eq s value 0 cap

theorem insert_eq (s : BoundedHashSetState T) (value : T) :
    s.insert cap stableHash value = s.place cap value (s.locate cap stableHash value) :=
  insertFrom_eq s value 0 cap

def valuesOf (slots : List (SetSlot T)) : Finset T := (slots.filterMap keyOf).toFinset

theorem valuesOf_cons_occupied (slots : List (SetSlot T)) (h : slot.occupied = true) :
    valuesOf (slot :: slots) = Insert.insert slot.value (valuesOf slots) := by
  rw [valuesOf, filterMap_cons, keyOf_occupied h, toFinset_cons]
  rfl

theorem valuesOf_cons_free (slots : List (SetSlot T))
    (h : slot.occupied = false) : valuesOf (slot :: slots) = valuesOf slots := by
  rw [valuesOf, filterMap_cons, keyOf_free h]
  rfl

/-- The slots are the probing table of the set, and the count is its size. -/
structure Holding (cap : Nat) (stableHash : T → Nat) (s : BoundedHashSetState T)
    (values : Finset T) : Prop where
  table : ∃ keys : List T, keys.toFinset = values ∧
    Represents keyOf (linear (home cap stableHash) cap) cap (fun _ => ()) s.slots
      ⟨keys, fun _ => ()⟩
  count_eq : s.count = values.card

/-- What an operation leaves that adds values: it is accepted exactly when they fit, and then the
set is the given one. -/
structure Adds (cap : Nat) (stableHash : T → Nat) (result : BoundedHashSetState T × Bool)
    (fits : Prop) (held : Finset T) : Prop where
  accepted_iff : result.2 = true ↔ fits
  accepted : result.2 = true → Holding cap stableHash result.1 held

variable {s : BoundedHashSetState T} {values : Finset T} {fits : Prop}

theorem Holding.adds (h : Holding cap stableHash s values) (hfits : fits) :
    Adds cap stableHash (s, true) fits values :=
  ⟨iff_of_true rfl hfits, fun _ => h⟩

theorem Adds.refused (hfits : ¬ fits) : Adds cap stableHash (s, false) fits values :=
  ⟨iff_of_false Bool.false_ne_true hfits, fun hok => absurd hok Bool.false_ne_true⟩

omit [DecidableEq T] in
theorem fullCycle (hcap : 0 < cap) : FullCycle (linear (home cap stableHash) cap) cap :=
  linear_fullCycle fun value => Nat.mod_lt (stableHash value) hcap

variable (h : Holding cap stableHash s values)
include h

theorem Holding.card_le : values.card ≤ cap := by
  obtain ⟨keys, rfl, hkeys⟩ := h.table
  exact (toFinset_card_le keys).trans hkeys.length_le

theorem Holding.mem_iff (value : T) :
    value ∈ values ↔ ∃ i, i < cap ∧ keyOf (s.slots i) = some value := by
  obtain ⟨keys, rfl, hkeys⟩ := h.table
  rw [mem_toFinset]
  exact hkeys.mem_iff value

variable (hcap : 0 < cap)
include hcap

theorem Holding.locate_cases (value : T) :
    (∃ i, s.locate cap stableHash value = .hit i ∧ value ∈ values) ∨
    (∃ i, s.locate cap stableHash value = .free i ∧ value ∉ values ∧ values.card < cap) ∨
    (s.locate cap stableHash value = .full ∧ value ∉ values ∧ values.card = cap) := by
  obtain ⟨keys, rfl, hkeys⟩ := h.table
  rw [mem_toFinset, toFinset_card_of_nodup hkeys.nodup]
  rcases hkeys.find_cases (fullCycle hcap) value with
    ⟨i, hfind, hmem, -⟩ | ⟨i, hfind, hnot, hroom⟩ | ⟨hfind, hnot, hfull⟩
  · exact .inl ⟨i, hfind, hmem⟩
  · exact .inr (.inl ⟨i, hfind, hnot, hroom⟩)
  · exact .inr (.inr ⟨hfind, hnot, hfull⟩)

theorem Holding.contains_iff (value : T) :
    s.contains cap stableHash value = true ↔ value ∈ values := by
  rw [contains_eq]
  rcases h.locate_cases hcap value with
    ⟨i, hfind, hmem⟩ | ⟨i, hfind, hnot, -⟩ | ⟨hfind, hnot, -⟩ <;> rw [hfind]
  · exact iff_of_true rfl hmem
  · exact iff_of_false Bool.false_ne_true hnot
  · exact iff_of_false Bool.false_ne_true hnot

theorem Holding.insert_adds (value : T) : Adds cap stableHash (s.insert cap stableHash value)
    ((Insert.insert value values).card ≤ cap) (Insert.insert value values) := by
  rw [insert_eq]
  rcases h.locate_cases hcap value with
    ⟨i, hfind, hmem⟩ | ⟨i, hfind, hnot, hroom⟩ | ⟨hfind, hnot, hfull⟩
  · rw [hfind, Finset.insert_eq_of_mem hmem]
    exact h.adds h.card_le
  · rw [hfind, Finset.card_insert_of_notMem hnot]
    simp only [place, h.count_eq, if_neg hroom.not_ge]
    refine Holding.adds ⟨?_, (Finset.card_insert_of_notMem hnot).symm⟩ hroom
    obtain ⟨keys, rfl, hkeys⟩ := h.table
    refine ⟨keys ++ [value], ?_, ?_⟩
    · rw [toFinset_append, Finset.union_comm]
      rfl
    · have hkey : keyOf { occupied := true, value := value } = some value := rfl
      have hstor := hkeys.store_free (fullCycle hcap) hfind hkey
      rw [mem_toFinset] at hnot
      rw [toFinset_card_of_nodup hkeys.nodup] at hroom
      simpa only [BoundedMap.put, if_neg hnot, if_pos hroom] using hstor
  · rw [hfind, Finset.card_insert_of_notMem hnot, hfull]
    exact .refused (Nat.not_succ_le_self cap)

theorem Holding.insertSlots_adds (slots : List (SetSlot T)) :
    Adds cap stableHash (s.insertSlots cap stableHash slots)
      ((values ∪ valuesOf slots).card ≤ cap) (values ∪ valuesOf slots) := by
  induction slots generalizing s values with
  | nil =>
    have hsame : values ∪ valuesOf [] = values := Finset.union_empty values
    rw [hsame]
    exact h.adds h.card_le
  | cons slot slots ih =>
    rw [insertSlots]
    cases hocc : slot.occupied with
    | false =>
      rw [valuesOf_cons_free slots hocc]
      exact ih h
    | true =>
      rw [valuesOf_cons_occupied slots hocc, Finset.union_insert, ← Finset.insert_union]
      obtain ⟨hacc, hs'⟩ := h.insert_adds hcap slot.value
      rcases hins : s.insert cap stableHash slot.value with ⟨s', ok⟩
      rw [hins] at hacc hs'
      cases ok with
      | false =>
        refine .refused fun hall => Bool.false_ne_true (hacc.mpr ?_)
        exact (Finset.card_le_card Finset.subset_union_left).trans hall
      | true => exact ih (hs' rfl)

theorem Holding.equal_iff {s' : BoundedHashSetState T} {values' : Finset T}
    (h' : Holding cap stableHash s' values') :
    s.equal cap stableHash s' = true ↔ values = values' := by
  have hall : ((range cap).all fun i =>
      !(s.slots i).occupied || s'.contains cap stableHash (s.slots i).value) = true ↔
      values ⊆ values' := by
    rw [all_eq_true]
    constructor
    · intro hall value hval
      obtain ⟨i, hi, hkey⟩ := (h.mem_iff value).mp hval
      have hslot := hall i (mem_range.mpr hi)
      cases hocc : (s.slots i).occupied with
      | false =>
        rw [keyOf_free hocc] at hkey
        cases hkey
      | true =>
        rw [keyOf_occupied hocc] at hkey
        rw [hocc, Option.some.inj hkey] at hslot
        exact (h'.contains_iff hcap value).mp hslot
    · intro hsub i hi
      cases hocc : (s.slots i).occupied with
      | false => rfl
      | true =>
        have hmem := (h.mem_iff _).mpr ⟨i, mem_range.mp hi, keyOf_occupied hocc⟩
        exact (h'.contains_iff hcap _).mpr (hsub hmem)
  rw [equal, Bool.and_eq_true, hall, beq_iff_eq, h.count_eq, h'.count_eq]
  constructor
  · rintro ⟨hcard, hsub⟩
    exact Finset.eq_of_subset_of_card_le hsub hcard.ge
  · rintro rfl
    exact ⟨rfl, Finset.Subset.refl _⟩

end BoundedHashSetState

/-! ### Runs -/

namespace GSet

open BoundedHashSetState

variable {T : Type} [DecidableEq T] {cap : Nat} {stableHash : T → Nat}
  {s : BoundedHashSetState T} {values : Finset T}

theorem holding_empty (blank : T) : Holding cap stableHash (empty blank) ∅ where
  table := ⟨[], rfl, Represents.empty _ fun _ _ => rfl⟩
  count_eq := rfl

theorem step_refused {op : GSetOp T} (hno : (step cap stableHash s op).2 = false) :
    (step cap stableHash s op).1 = s := by
  cases op with
  | add value =>
    change (s.insert cap stableHash value).2 = false at hno
    change (s.insert cap stableHash value).1 = s
    rw [BoundedHashSetState.insert_eq] at hno ⊢
    unfold place at hno ⊢
    split at hno
    · rfl
    · split_ifs at hno ⊢
      rfl
    · rfl
  | merge other =>
    change (commitMerge cap stableHash s other).2 = false at hno
    change (commitMerge cap stableHash s other).1 = s
    rw [commitMerge] at hno ⊢
    split at hno
    · cases hno
    · rfl

variable (h : Holding cap stableHash s values) (hcap : 0 < cap)
include h hcap

/-- **The step lemma**: an operation is accepted exactly when it is well formed and its values
fit. -/
theorem step_adds (op : GSetOp T) : Adds cap stableHash (step cap stableHash s op)
    (WellFormed cap op ∧ (values ∪ (offered cap op).toFinset).card ≤ cap)
    (values ∪ (offered cap op).toFinset) := by
  cases op with
  | add value =>
    have hunion : values ∪ (offered cap (.add value)).toFinset = Insert.insert value values := by
      rw [Finset.union_comm]
      rfl
    rw [hunion, WellFormed, true_and]
    exact h.insert_adds hcap value
  | merge other =>
    change Adds cap stableHash (commitMerge cap stableHash s other) _ _
    rw [commitMerge, BoundedHashSetState.merge]
    cases hwell : other.wellFormed cap with
    | false => exact .refused fun hboth => absurd (hwell.symm.trans hboth.1) Bool.false_ne_true
    | true =>
      obtain ⟨hacc, hs'⟩ := h.insertSlots_adds hcap ((range cap).map other.slots)
      rcases hins : s.insertSlots cap stableHash ((range cap).map other.slots) with ⟨s', ok⟩
      rw [hins] at hacc hs'
      cases ok with
      | false => exact .refused fun hboth => Bool.false_ne_true (hacc.mpr hboth.2)
      | true => exact (hs' rfl).adds ⟨hwell, hacc.mp rfl⟩

/-- **The run lemma**: the set holds what it held and what the accepted operations
brought. -/
theorem run_holding (ops : List (GSetOp T)) : Holding cap stableHash (run cap stableHash s ops)
      (values ∪ (received cap stableHash s ops).toFinset) := by
  induction ops generalizing s values with
  | nil => simpa [received, run] using h
  | cons op ops ih =>
    rw [received, toFinset_append, ← Finset.union_assoc]
    change Holding cap stableHash (run cap stableHash (step cap stableHash s op).1 ops) _
    cases hok : (step cap stableHash s op).2 with
    | true => exact ih ((step_adds h hcap op).accepted hok)
    | false =>
      rw [step_refused hok]
      simpa using ih h

theorem received_of_fits {ops : List (GSetOp T)} (hwell : ∀ op ∈ ops, WellFormed cap op)
    (hfits : (values ∪ (ops.flatMap (offered cap)).toFinset).card ≤ cap) :
    received cap stableHash s ops = ops.flatMap (offered cap) := by
  induction ops generalizing s values with
  | nil => rfl
  | cons op ops ih =>
    rw [flatMap_cons, toFinset_append, ← Finset.union_assoc] at hfits
    have hspec := step_adds h hcap op
    have hok : (step cap stableHash s op).2 = true := by
      rw [hspec.accepted_iff]
      refine ⟨hwell op mem_cons_self, ?_⟩
      exact (Finset.card_le_card Finset.subset_union_left).trans hfits
    rw [received, hok]
    refine congrArg (offered cap op ++ ·) ?_
    exact ih (hspec.accepted hok) (fun op' hop' => hwell op' (mem_cons_of_mem _ hop')) hfits

end GSet

open GSet BoundedHashSetState in
/-- **A grow-only set holds exactly what it accepted.**  After every sequence of adds and
merges a value is contained exactly when an accepted operation brought it, the count is
the number of such values, and a refused merge changes nothing.  If the values that two
sequences bring are the same and fit, the two sets are equal for the code, whatever the
order, the grouping and the gossiped arrays are. -/
theorem gset_holds_received {T : Type} [DecidableEq T] {cap : Nat} (hcap : 0 < cap)
    (stableHash : T → Nat) (blank : T) (ops : List (GSetOp T)) :
    (∀ value, (run cap stableHash (empty blank) ops).contains cap stableHash value = true ↔
      value ∈ received cap stableHash (empty blank) ops) ∧
    (run cap stableHash (empty blank) ops).count =
      (received cap stableHash (empty blank) ops).toFinset.card ∧
    (∀ other, (step cap stableHash (run cap stableHash (empty blank) ops) (.merge other)).2 =
        false →
      (step cap stableHash (run cap stableHash (empty blank) ops) (.merge other)).1 =
        run cap stableHash (empty blank) ops) ∧
    ∀ ops' : List (GSetOp T), (∀ op ∈ ops ++ ops', WellFormed cap op) →
      (∀ value, value ∈ ops.flatMap (offered cap) ↔ value ∈ ops'.flatMap (offered cap)) →
      (ops.flatMap (offered cap)).toFinset.card ≤ cap →
      (run cap stableHash (empty blank) ops).equal cap stableHash
        (run cap stableHash (empty blank) ops') = true := by
  have hstart : Holding cap stableHash (empty blank) ∅ := holding_empty blank
  have hrun := run_holding hstart hcap ops
  rw [Finset.empty_union] at hrun
  refine ⟨?_, hrun.count_eq, ?_, ?_⟩
  · intro value
    rw [hrun.contains_iff hcap, mem_toFinset]
  · intro other hfalse
    exact step_refused hfalse
  · intro ops' hwell hsame hfits
    have hsets : (ops.flatMap (offered cap)).toFinset = (ops'.flatMap (offered cap)).toFinset := by
      ext value
      rw [mem_toFinset, mem_toFinset]
      exact hsame value
    have hrun' := run_holding hstart hcap ops'
    rw [Finset.empty_union, received_of_fits hstart hcap
      (fun op hop => hwell op (mem_append_right _ hop))
      (by rw [Finset.empty_union, ← hsets]; exact hfits)] at hrun'
    rw [received_of_fits hstart hcap (fun op hop => hwell op (mem_append_left _ hop))
      (by rw [Finset.empty_union]; exact hfits)] at hrun
    rw [hrun.equal_iff hcap hrun']
    exact hsets

/-- A gossiped array that repeats one value, off its probe sequence. -/
def repeatedSlots : BoundedHashSetState Nat :=
  { slots := fun i => { occupied := decide (i < 2), value := 3 }, count := 2 }

open GSet BoundedHashSetState in
/-- The repeated value is contained once, and the set equals one that was built by adds in
another order. -/
theorem gset_holds_received_repeatedSlots :
    (run 4 id (empty 0) [.merge repeatedSlots, .add 9]).contains 4 id 3 = true ∧
    (run 4 id (empty 0) [.merge repeatedSlots, .add 9]).count = 2 ∧
    (run 4 id (empty 0) [.merge repeatedSlots, .add 9]).equal 4 id
      (run 4 id (empty 0) [.add 9, .add 3]) = true := by
  obtain ⟨hcontains, hcount, -, hequal⟩ := gset_holds_received (by decide : 0 < 4) id 0
    [.merge repeatedSlots, .add 9]
  refine ⟨(hcontains 3).mpr (by decide), hcount.trans (by decide), ?_⟩
  apply hequal [.add 9, .add 3]
  · intro op hop
    simp only [cons_append, nil_append, mem_cons, not_mem_nil, or_false] at hop
    rcases hop with rfl | rfl | rfl | rfl
    · exact (by decide : repeatedSlots.wellFormed 4 = true)
    all_goals trivial
  · intro value
    have hleft : [GSetOp.merge repeatedSlots, .add 9].flatMap (offered 4) = [3, 3, 9] := by
      decide
    have hright : [GSetOp.add 9, .add 3].flatMap (offered 4) = [9, 3] := by
      decide
    rw [hleft, hright]
    simp only [mem_cons, not_mem_nil, or_false]
    tauto
  · decide

end Crucible
