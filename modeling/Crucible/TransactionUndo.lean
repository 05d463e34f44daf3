import Crucible.Loops
import Crucible.TransactionLog
import Mathlib.Data.Nat.ModEq

/-! # Rollbacks undo displacements

The displaced transactions that no rollback has restored form a stack, the latest
displacement on top.  An activation pushes the transaction that it displaces and a
rollback pops the one that it restores.  A claim may take a transaction out of the
middle of the stack when it recycles its slot, but never the one on top.
-/
namespace Crucible
open List Function
namespace TransactionLog
variable {n : Nat} {log log' : TransactionLog} {undo : List Nat}

/-! ### The slots of the ring -/

theorem add_mod_ne {k : Nat} (hk : 0 < k) (hn : k < n) (c : Nat) : (c + k) % n ≠ c % n := by
  intro heq
  have hdvd : n ∣ k := by
    have hmod : c ≡ c + k [MOD n] := heq.symm
    simpa using (Nat.modEq_iff_dvd' (Nat.le_add_right c k)).mp hmod
  exact absurd (Nat.le_of_dvd hk hdvd) hn.not_ge

theorem recent_oldest (hn : 1 ≤ n) : log.recent n (n - 1) = log.nextSlot n := by
  rw [recent, nextSlot, show log.cursor + n - 1 - (n - 1) = log.cursor by omega]

variable {slot i tx : Nat}

theorem recent_surj (log : TransactionLog) (hn : 1 ≤ n) (h : slot < n) :
    ∃ age < n, log.recent n age = slot := by
  have hdiv := Nat.div_add_mod (log.cursor + n - 1 - slot) n
  refine ⟨(log.cursor + n - 1 - slot) % n, Nat.mod_lt _ hn, ?_⟩
  rw [recent, show log.cursor + n - 1 - (log.cursor + n - 1 - slot) % n =
    slot + n * ((log.cursor + n - 1 - slot) / n) by omega, Nat.add_mul_mod_self_left,
    Nat.mod_eq_of_lt h]

/-! ### The invariant -/

/-- The displaced transactions that no rollback has restored, the latest displacement
first. -/
structure Undoes (log : TransactionLog) (undo : List Nat) : Prop where
  mem : ∀ i, i ∈ undo ↔ i < log.count ∧ (log.entries i).status = .superseded
  sorted : undo.Pairwise fun i j =>
    (log.entries j).displacementOrder < (log.entries i).displacementOrder

/-- The invariant of the log. -/
structure Valid (n : Nat) (log : TransactionLog) (undo : List Nat) : Prop where
  cap : 4 ≤ n
  count_le : log.count ≤ n
  cursor_eq : log.count < n → log.cursor = log.count
  active_lt : ∀ i, log.active = some i → i < log.count
  active_iff : ∀ i, i < log.count → ((log.entries i).status = .active ↔ log.active = some i)
  order_le : ∀ i, i < log.count → (log.entries i).displacementOrder ≤ log.displacements
  undoes : log.Undoes undo

theorem start_valid (hn : 4 ≤ n) : ({} : TransactionLog).Valid n [] := by
  refine ⟨hn, zero_le, fun _ => rfl, nofun, nofun, nofun, fun i => ?_, List.Pairwise.nil⟩
  exact ⟨nofun, fun h => absurd h.1 (Nat.not_lt_zero i)⟩

theorem Valid.mem_recent (h : log.Valid n undo) :
    slot ∈ (range log.count).map (log.recent n) ↔ slot < log.count := by
  have hcap := h.cap
  have hle := h.count_le
  rw [mem_map]
  by_cases hfull : log.count = n
  · rw [hfull]
    constructor
    · rintro ⟨age, -, rfl⟩
      exact Nat.mod_lt _ (by omega)
    · intro hslot
      obtain ⟨age, hage, heq⟩ := recent_surj log (by omega) hslot
      exact ⟨age, mem_range.mpr hage, heq⟩
  · -- before the first wrap, the slot of an age counts down from the cursor
    have hrec : ∀ age, age < log.count → log.recent n age = log.count - 1 - age := by
      intro age hage
      rw [recent, h.cursor_eq (by omega), show log.count + n - 1 - age =
        (log.count - 1 - age) + n by omega, Nat.add_mod_right, Nat.mod_eq_of_lt (by omega)]
    constructor
    · rintro ⟨age, hage, rfl⟩
      have hage := mem_range.mp hage
      rw [hrec age hage]
      omega
    · intro hslot
      refine ⟨log.count - 1 - slot, mem_range.mpr (by omega), ?_⟩
      rw [hrec _ (by omega)]
      omega

/-! ### The rollback target -/

theorem previousFrom_latest (slots : List Nat) (target : Option Nat)
    (hle : ∀ i ∈ slots, (log.entries i).displacementOrder ≤ log.displacements) :
    (∀ r, log.previousFrom slots target = some r →
      target = some r ∨ r ∈ slots ∧ (log.entries r).status = .superseded) ∧
    ∀ i, (target = some i ∨ i ∈ slots ∧ (log.entries i).status = .superseded) →
      ∃ r, log.previousFrom slots target = some r ∧
        (log.entries i).displacementOrder ≤ (log.entries r).displacementOrder := by
  induction slots generalizing target with
  | nil => exact ⟨fun r hr => .inl hr, fun i hi => ⟨i, hi.resolve_right (nomatch ·.1), le_rfl⟩⟩
  | cons slot slots ih =>
    have hrest := fun i hi => hle i (mem_cons_of_mem slot hi)
    rw [previousFrom]
    by_cases hnew : log.isNewerDisplacement target slot = true
    · rw [if_pos hnew]
      obtain ⟨hsup, htar⟩ : (log.entries slot).status = .superseded ∧ ∀ t, target = some t →
          (log.entries t).displacementOrder < (log.entries slot).displacementOrder := by
        unfold isNewerDisplacement at hnew
        rw [Bool.and_eq_true] at hnew
        refine ⟨of_decide_eq_true hnew.1, fun t ht => ?_⟩
        rw [ht] at hnew
        exact of_decide_eq_true hnew.2
      by_cases hlast : (log.entries slot).displacementOrder = log.displacements
      · -- no place is later than the number of displacements
        rw [if_pos hlast]
        refine ⟨?_, fun i hi => ⟨slot, rfl, ?_⟩⟩
        · rintro r ⟨⟩
          exact .inr ⟨mem_cons_self, hsup⟩
        · rcases hi with ht | ⟨hi, -⟩
          · exact le_of_lt (htar i ht)
          · rw [hlast]
            exact hle i hi
      · rw [if_neg hlast]
        obtain ⟨hfrom, hlat⟩ := ih (some slot) hrest
        obtain ⟨r, hr, hge⟩ := hlat slot (.inl rfl)
        refine ⟨fun r' hr' => .inr ?_, fun i hi => ?_⟩
        · rcases hfrom r' hr' with heq | ⟨hmem, hr'⟩
          · cases heq
            exact ⟨mem_cons_self, hsup⟩
          · exact ⟨mem_cons_of_mem slot hmem, hr'⟩
        · rcases hi with ht | ⟨_ | ⟨_, hi⟩, hi'⟩
          · exact ⟨r, hr, le_trans (le_of_lt (htar i ht)) hge⟩
          · exact ⟨r, hr, hge⟩
          · exact hlat i (.inr ⟨hi, hi'⟩)
    · rw [if_neg hnew]
      obtain ⟨hfrom, hlat⟩ := ih target hrest
      refine ⟨fun r hr => (hfrom r hr).imp_right fun hm => ⟨mem_cons_of_mem slot hm.1, hm.2⟩, ?_⟩
      rintro i (ht | ⟨_ | ⟨_, hi⟩, hi'⟩)
      · exact hlat i (.inl ht)
      · -- a slot that is passed over is not later than the target
        unfold isNewerDisplacement at hnew
        rw [decide_eq_true hi'] at hnew
        cases target with
        | none => exact absurd rfl hnew
        | some t =>
          obtain ⟨r, hr, hge⟩ := hlat t (.inl rfl)
          exact ⟨r, hr, le_trans (Nat.le_of_not_lt fun hlt => hnew (decide_eq_true hlt)) hge⟩
      · exact hlat i (.inr ⟨hi, hi'⟩)

/-- **The rollback target is the top of the stack.** -/
theorem Valid.previous_eq (h : log.Valid n undo) : log.previous n = undo.head? := by
  have hmem := h.undoes.mem
  obtain ⟨hfrom, hlat⟩ := previousFrom_latest ((range log.count).map (log.recent n))
    none fun i hi => h.order_le i (h.mem_recent.mp hi)
  cases undo with
  | nil =>
    refine Option.eq_none_iff_forall_ne_some.mpr fun r hr => ?_
    obtain ⟨hr', hsup⟩ := (hfrom r hr).resolve_left nofun
    exact nomatch (hmem r).mpr ⟨h.mem_recent.mp hr', hsup⟩
  | cons top rest =>
    obtain ⟨htop, hsup⟩ := (hmem top).mp mem_cons_self
    obtain ⟨r, hprev, hge⟩ := hlat top (.inr ⟨h.mem_recent.mpr htop, hsup⟩)
    obtain ⟨hr, hr'⟩ := (hfrom r hprev).resolve_left nofun
    rcases mem_cons.mp ((hmem r).mpr ⟨h.mem_recent.mp hr, hr'⟩) with rfl | hin
    · exact hprev
    · -- the top is displaced later than everything below it
      have hlt := (pairwise_cons.mp h.undoes.sorted).1 r hin
      omega

/-! ### A new transaction -/

/-- Two passes move the cursor of a full ring to a slot that holds neither the active transaction
nor the target: they cannot have met three kept slots. -/
theorem skipKept_twice (log : TransactionLog) (hcap : 4 ≤ n) (target : Option Nat) :
    ∃ cursor, (log.skipKept n target).skipKept n target = { log with cursor } ∧
      (log.count < n → cursor = log.cursor) ∧ ¬ (log.count = n ∧
        (some (cursor % n) = log.active ∨ some (cursor % n) = target)) := by
  obtain ⟨entries, cursor, count, active, displacements⟩ := log
  have hpass : ∀ c,
      (⟨entries, c, count, active, displacements⟩ : TransactionLog).skipKept n target =
      if count = n ∧ (some (c % n) = active ∨ some (c % n) = target) then
        ⟨entries, c + 1, count, active, displacements⟩
      else ⟨entries, c, count, active, displacements⟩ := by
    intro c
    rw [skipKept, recent_oldest (by omega)]
    by_cases hkept : count = n ∧ (some (c % n) = active ∨ some (c % n) = target)
    · rw [if_pos hkept, nextSlot, if_pos hkept, claim, if_neg (by simp [hkept.1])]
    · rw [if_neg hkept, nextSlot, if_neg hkept]
  rw [hpass]
  by_cases hkept : count = n ∧ (some (cursor % n) = active ∨ some (cursor % n) = target)
  · rw [if_pos hkept, hpass]
    have hfull : ¬ count < n := by simp [hkept.1]
    by_cases hkept' : count = n ∧
        (some ((cursor + 1) % n) = active ∨ some ((cursor + 1) % n) = target)
    · rw [if_pos hkept']
      refine ⟨cursor + 2, rfl, fun hlt => absurd hlt hfull, ?_⟩
      rintro ⟨-, hthird⟩
      obtain ⟨-, hfirst⟩ := hkept
      obtain ⟨-, hsecond⟩ := hkept'
      have hone := add_mod_ne Nat.one_pos (show 1 < n by omega) cursor
      have htwo := add_mod_ne Nat.one_pos (show 1 < n by omega) (cursor + 1)
      have hthr := add_mod_ne Nat.two_pos (show 2 < n by omega) cursor
      -- the first slot is one of the two, the second then the other one
      rcases hfirst with hfirst | hfirst <;> rw [← hfirst] at hsecond hthird <;>
        simp only [Option.some.injEq, hone, false_or, or_false] at hsecond <;>
        simp [← hsecond, hthr, htwo] at hthird
    · rw [if_neg hkept']
      exact ⟨cursor + 1, rfl, fun hlt => absurd hlt hfull, hkept'⟩
  · rw [if_neg hkept, hpass, if_neg hkept]
    exact ⟨cursor, rfl, fun _ => rfl, hkept⟩

variable {entries : Nat → Transaction}

theorem Valid.claim (h : log.Valid n undo) {stepId : Nat}
    (hact : some (log.nextSlot n) ≠ log.active) (hself : entries (log.nextSlot n) = { stepId })
    (hoth : ∀ {i}, i ≠ log.nextSlot n → entries i = log.entries i) :
    ({ log.claim n with entries } : TransactionLog).Valid n
      (undo.filter (· ≠ log.nextSlot n)) := by
  have hcap := h.cap
  have hle := h.count_le
  -- the claimed slot is in use afterwards, and the slots in use before stay so
  have hcount : ∀ i, i < (log.claim n).count ↔ i < log.count ∨ i = log.nextSlot n := by
    have hmod := Nat.mod_lt log.cursor (show 0 < n by omega)
    unfold TransactionLog.claim nextSlot
    by_cases hroom : log.count < n
    · have hcur := h.cursor_eq hroom
      simp only [if_pos hroom, hcur, Nat.mod_eq_of_lt hroom]
      omega
    · simp only [if_neg hroom]
      omega
  refine ⟨hcap, ?_, fun hlt => ?_, fun i hi => ?_, fun i hi => ?_, fun i hi => ?_, fun i => ?_, ?_⟩
  · change (if log.count < n then log.count + 1 else log.count) ≤ n
    split <;> omega
  · change (if log.count < n then log.count + 1 else log.count) < n at hlt
    change log.cursor + 1 = if log.count < n then log.count + 1 else log.count
    have hroom : log.count < n := by
      by_contra hfull
      rw [if_neg hfull] at hlt
      exact hfull hlt
    rw [if_pos hroom, h.cursor_eq hroom]
  · exact (hcount i).mpr (.inl (h.active_lt i hi))
  · show (entries i).status = .active ↔ log.active = some i
    by_cases hi' : i = log.nextSlot n
    · rw [hi', hself]
      exact ⟨nofun, fun heq => absurd heq.symm hact⟩
    · rw [hoth hi']
      exact h.active_iff i (((hcount i).mp hi).resolve_right hi')
  · show (entries i).displacementOrder ≤ log.displacements
    by_cases hi' : i = log.nextSlot n
    · rw [hi', hself]
      exact zero_le
    · rw [hoth hi']
      exact h.order_le i (((hcount i).mp hi).resolve_right hi')
  · show _ ↔ i < (log.claim n).count ∧ (entries i).status = .superseded
    rw [mem_filter, h.undoes.mem i, hcount i]
    by_cases hi' : i = log.nextSlot n
    · rw [hi', hself]
      exact ⟨fun hmem => absurd rfl (of_decide_eq_true hmem.2), fun hmem => nomatch hmem.2⟩
    · rw [hoth hi']
      exact ⟨fun hmem => ⟨.inl hmem.1.1, hmem.1.2⟩,
        fun hmem => ⟨⟨hmem.1.resolve_right hi', hmem.2⟩, decide_eq_true hi'⟩⟩
  · refine (h.undoes.sorted.filter _).imp_of_mem fun {i j} hi hj hlt => ?_
    have hi := of_decide_eq_true (mem_filter.mp hi).2
    have hj := of_decide_eq_true (mem_filter.mp hj).2
    show (entries j).displacementOrder < (entries i).displacementOrder
    rwa [hoth hi, hoth hj]

/-- **A new transaction** takes a slot that is neither the active one nor the rollback
target, and leaves the target and the other slots as they were. -/
theorem Valid.beginTx (h : log.Valid n undo) (stepId : Nat) :
    some (log.beginTx n stepId).2 ≠ log.active ∧ some (log.beginTx n stepId).2 ≠ undo.head? ∧
      (log.beginTx n stepId).1.active = log.active ∧
      (∀ i, i ≠ (log.beginTx n stepId).2 → (log.beginTx n stepId).1.entries i = log.entries i) ∧
      (log.beginTx n stepId).1.Valid n (undo.filter (· ≠ (log.beginTx n stepId).2)) := by
  obtain ⟨cursor, hskip, hcur, hfree⟩ := skipKept_twice log h.cap (log.previous n)
  have hmoved : ({ log with cursor } : TransactionLog).Valid n undo :=
    { h with
      cursor_eq := fun hlt => (hcur hlt).trans (h.cursor_eq hlt)
      undoes := ⟨h.undoes.mem, h.undoes.sorted⟩ }
  simp only [TransactionLog.beginTx, hskip]
  -- a ring with room claims a slot that no transaction has had
  have hkept : ∀ {i}, i < log.count →
      (some i = log.active ∨ some i = log.previous n) → i ≠ cursor % n := by
    intro i hi hkept heq
    by_cases hfull : log.count = n
    · exact hfree ⟨hfull, heq ▸ hkept⟩
    · have hroom : log.count < n := Nat.lt_of_le_of_ne h.count_le hfull
      rw [heq, hcur hroom, h.cursor_eq hroom, Nat.mod_eq_of_lt hroom] at hi
      exact lt_irrefl _ hi
  have hnot : some (cursor % n) ≠ log.active := fun heq =>
    hkept (h.active_lt _ heq.symm) (.inl heq) rfl
  refine ⟨hnot, fun heq => ?_, rfl, fun i hne => update_of_ne hne _ _,
    hmoved.claim hnot (update_self ..) fun hne => update_of_ne hne _ _⟩
  have hmem : cursor % n ∈ undo := mem_of_mem_head? heq.symm
  exact hkept ((h.undoes.mem _).mp hmem).1 (.inr (h.previous_eq ▸ heq)) rfl

/-! ### Commit, activation and rollback -/

@[simp] theorem setStatus_self (log : TransactionLog) (tx : Nat) (status : TxStatus) :
    ((log.setStatus tx status).entries tx).status = status := by
  simp only [setStatus, update_self]

theorem setStatus_of_ne (log : TransactionLog) (status : TxStatus) (h : i ≠ tx) :
    (log.setStatus tx status).entries i = log.entries i :=
  update_of_ne h _ _

@[simp] theorem setStatus_order (log : TransactionLog) (tx i : Nat) (status : TxStatus) :
    ((log.setStatus tx status).entries i).displacementOrder =
      (log.entries i).displacementOrder := by
  by_cases h : i = tx
  · simp only [h, setStatus, update_self]
  · rw [setStatus_of_ne log status h]

theorem Valid.congr (h : log.Valid n undo)
    (hact : ∀ i, (entries i).status = .active ↔ (log.entries i).status = .active)
    (hsup : ∀ i, (entries i).status = .superseded ↔ (log.entries i).status = .superseded)
    (hord : ∀ i, (entries i).displacementOrder = (log.entries i).displacementOrder) :
    ({ log with entries } : TransactionLog).Valid n undo := by
  refine ⟨h.cap, h.count_le, h.cursor_eq, h.active_lt, fun i hi => ?_, fun i hi => ?_,
    fun i => ?_, ?_⟩
  · exact (hact i).trans (h.active_iff i hi)
  · rw [hord i]
    exact h.order_le i hi
  · rw [hsup i]
    exact h.undoes.mem i
  · refine h.undoes.sorted.imp fun {i j} hlt => ?_
    rwa [hord i, hord j]

theorem Valid.commit (h : log.Valid n undo) {region contentHash merkleRoot : Nat} {ok : Bool}
    (hcom : log.commit tx region contentHash merkleRoot = .ok (log', ok)) :
    log'.Valid n undo := by
  unfold TransactionLog.commit at hcom
  split at hcom
  · cases hcom
  dsimp only at hcom
  split at hcom
  · rename_i hopen
    cases hcom
    -- the committed entry was neither active nor superseded, and is neither now
    have hnot : ∀ status, status ≠ .recording → status ≠ .closed →
        (log.entries tx).status ≠ status := by
      rintro status hrec hclos rfl
      exact hopen.elim hrec hclos
    refine h.congr ?_ ?_ ?_ <;> intro i <;> by_cases hi : i = tx <;>
      simp only [hi, update_self, update_of_ne, ne_eq, not_false_eq_true]
    · exact ⟨nofun, fun hstat => absurd hstat (hnot _ nofun nofun)⟩
    · exact ⟨nofun, fun hstat => absurd hstat (hnot _ nofun nofun)⟩
  · cases hcom
    exact h

/-- What the displacement of the transaction in slot `prev` leaves. -/
structure Displaces (log : TransactionLog) (prev : Nat) (log' : TransactionLog) : Prop where
  count_eq : log'.count = log.count
  cursor_eq : log'.cursor = log.cursor
  displacements_eq : log'.displacements = log.displacements + 1
  status_eq : (log'.entries prev).status = .superseded
  order_eq : (log'.entries prev).displacementOrder = log.displacements + 1
  other : ∀ {i}, i ≠ prev → log'.entries i = log.entries i

theorem displaceActive_cases (hdis : log.displaceActive = .ok log') :
    (log.active = none ∧ log' = log) ∨
      ∃ prev, log.active = some prev ∧ log.Displaces prev log' := by
  unfold displaceActive at hdis
  split at hdis
  · rename_i hnone
    exact .inl ⟨hnone, (Except.ok.inj hdis).symm⟩
  · rename_i prev hprev
    obtain ⟨displacements, hbump, hdis⟩ := bind_ok hdis
    obtain ⟨order, hadv, hdis⟩ := bind_ok hdis
    obtain rfl : displacements = log.displacements + 1 := by
      unfold bump64 at hbump
      split at hbump
      · cases hbump
      · exact (Except.ok.inj hbump).symm
    obtain rfl : order = log.displacements + 1 := by
      unfold advance64 at hadv
      split at hadv
      · exact (Except.ok.inj hadv).symm
      · cases hadv
    cases hdis
    refine .inr ⟨prev, hprev, rfl, rfl, rfl, ?_, ?_, fun hi => update_of_ne hi _ _⟩
    · simp only [update_self]
    · simp only [update_self]

section
variable (h : log.Valid n undo)
include h

theorem Valid.displaceActive_total (hroom : log.displacements ≠ u64Max) :
    ∃ log', log.displaceActive = .ok log' := by
  unfold displaceActive
  split
  · exact ⟨_, rfl⟩
  · rename_i prev hprev
    have hle := h.order_le prev (h.active_lt prev hprev)
    have hbump : bump64 log.displacements = .ok (log.displacements + 1) := if_neg hroom
    have hadv : advance64 (log.entries prev).displacementOrder (log.displacements + 1) =
        .ok (log.displacements + 1) := if_pos (Nat.le_succ_of_le hle)
    exact ⟨_, (bind_of_ok hbump).trans (bind_of_ok hadv)⟩

theorem Valid.setActive {mid : TransactionLog} {undo' : List Nat}
    (hcount : mid.count = log.count) (hcur : mid.cursor = log.cursor) (htx : tx < log.count)
    (hquiet : ∀ i, i < log.count → i ≠ tx → (mid.entries i).status ≠ .active)
    (hord : ∀ i, i < log.count → (mid.entries i).displacementOrder ≤ mid.displacements)
    (hmem : ∀ i, i ∈ undo' ↔ i < log.count ∧ i ≠ tx ∧ (mid.entries i).status = .superseded)
    (hsor : undo'.Pairwise fun i j =>
      (mid.entries j).displacementOrder < (mid.entries i).displacementOrder) :
    TransactionLog.Valid n { mid.setStatus tx .active with active := some tx } undo' := by
  refine ⟨h.cap, ?_, ?_, fun i hi => ?_, fun i hi => ?_, fun i hi => ?_, fun i => ?_, ?_⟩
  · show mid.count ≤ n
    rw [hcount]
    exact h.count_le
  · show mid.count < n → mid.cursor = mid.count
    rw [hcount, hcur]
    exact h.cursor_eq
  · show i < mid.count
    rw [hcount]
    exact Option.some.inj hi ▸ htx
  · by_cases hne : i = tx
    · rw [hne, setStatus_self]
      exact ⟨fun _ => rfl, fun _ => rfl⟩
    · rw [setStatus_of_ne _ _ hne]
      exact ⟨fun heq => absurd heq (hquiet i (hcount ▸ hi) hne),
        fun heq => absurd (Option.some.inj heq).symm hne⟩
  · rw [setStatus_order]
    exact hord i (hcount ▸ hi)
  · show _ ↔ i < mid.count ∧ ((mid.setStatus tx .active).entries i).status = .superseded
    rw [hmem, hcount]
    by_cases hne : i = tx
    · rw [hne, setStatus_self]
      exact ⟨fun hin => absurd rfl hin.2.1, fun hin => nomatch hin.2⟩
    · rw [setStatus_of_ne _ _ hne]
      exact and_congr_right fun _ => and_iff_right hne
  · refine hsor.imp fun {i j} hlt => ?_
    rwa [setStatus_order, setStatus_order]

theorem Valid.activate_first (htx : tx < log.count)
    (hcom : (log.entries tx).status = .committed) (hnone : log.active = none) :
    TransactionLog.Valid n { log.setStatus tx .active with active := some tx } undo := by
  refine h.setActive rfl rfl htx (fun i hi _ heq => ?_) h.order_le (fun i => ?_) h.undoes.sorted
  · rw [h.active_iff i hi, hnone] at heq
    cases heq
  · rw [h.undoes.mem i]
    refine and_congr_right fun _ => (and_iff_right_of_imp ?_).symm
    rintro hsup rfl
    exact nomatch hsup.symm.trans hcom

/-- An activation puts the transaction that it displaces in front of the earlier ones. -/
theorem Valid.activate_next {a : Nat} {mid : TransactionLog}
    (htx : tx < log.count) (hcom : (log.entries tx).status = .committed)
    (ha : log.active = some a) (hmid : log.Displaces a mid) :
    TransactionLog.Valid n { mid.setStatus tx .active with active := some tx } (a :: undo) := by
  have hlt := h.active_lt a ha
  have hact := (h.active_iff a hlt).mpr ha
  have hne : a ≠ tx := by
    rintro rfl
    exact nomatch hact.symm.trans hcom
  have hnot : ∀ {i}, i ∈ undo → i ≠ a := by
    rintro i hmem rfl
    exact nomatch hact.symm.trans ((h.undoes.mem i).mp hmem).2
  refine h.setActive hmid.count_eq hmid.cursor_eq htx (fun i hi _ heq => ?_) (fun i hi => ?_)
    (fun i => ?_) ?_
  · by_cases hia : i = a
    · rw [hia, hmid.status_eq] at heq
      cases heq
    · rw [hmid.other hia, h.active_iff i hi, ha] at heq
      exact hia (Option.some.inj heq).symm
  · rw [hmid.displacements_eq]
    by_cases hia : i = a
    · rw [hia, hmid.order_eq]
    · rw [hmid.other hia]
      exact Nat.le_succ_of_le (h.order_le i hi)
  · rw [mem_cons]
    by_cases hia : i = a
    · rw [hia]
      exact iff_of_true (.inl rfl) ⟨hlt, hne, hmid.status_eq⟩
    · rw [or_iff_right hia, h.undoes.mem i, hmid.other hia]
      refine and_congr_right fun _ => (and_iff_right_of_imp ?_).symm
      rintro hsup rfl
      exact nomatch hsup.symm.trans hcom
  · refine pairwise_cons.mpr ⟨fun i hi => ?_,
      h.undoes.sorted.imp_of_mem fun {i j} hi hj hless => ?_⟩
    · -- the displaced transaction has the latest place of all
      rw [hmid.other (hnot hi), hmid.order_eq]
      exact Nat.lt_succ_of_le (h.order_le i ((h.undoes.mem i).mp hi).1)
    · rwa [hmid.other (hnot hi), hmid.other (hnot hj)]

/-- **An activation pushes the transaction that it displaces.** -/
theorem Valid.activate {prev : Option Nat} (htx : tx < log.count)
    (hcom : (log.entries tx).status = .committed)
    (hact : log.activate tx = .ok (log', prev)) :
    prev = log.active ∧ log'.active = some tx ∧ log'.Valid n (log.active.toList ++ undo) := by
  rw [TransactionLog.activate, if_pos hcom] at hact
  obtain ⟨displaced, hdis, hact⟩ := bind_ok hact
  cases hact
  refine ⟨rfl, rfl, ?_⟩
  obtain ⟨hnone, rfl⟩ | ⟨a, ha, hmid⟩ := displaceActive_cases hdis
  · rw [hnone]
    exact h.activate_first htx hcom hnone
  · rw [ha]
    exact h.activate_next htx hcom ha hmid

end

/-- **A rollback pops the transaction that it restores.** -/
theorem Valid.rollback {top : Nat} (h : log.Valid n (top :: undo)) :
    (log.rollback n).1.active = some top ∧ (log.rollback n).1.Valid n undo ∧
      (log.rollback n).2 = true := by
  have hprev : log.previous n = some top := h.previous_eq
  obtain ⟨htop, hsup⟩ := (h.undoes.mem top).mp mem_cons_self
  obtain ⟨hbel, hsor⟩ := pairwise_cons.mp h.undoes.sorted
  generalize hmid : log.active.elim log (log.setStatus · .rolledBack) = mid
  have hrol : log.rollback n = ({ mid.setStatus top .active with active := some top }, true) := by
    rw [← hmid]
    cases hact : log.active <;>
      simp only [TransactionLog.rollback, hprev, hact, Option.elim_none, Option.elim_some]
  have hcount : mid.count = log.count ∧ mid.cursor = log.cursor ∧
      mid.displacements = log.displacements := by
    rw [← hmid]
    cases log.active with
    | none => exact ⟨rfl, rfl, rfl⟩
    | some tx => exact ⟨rfl, rfl, rfl⟩
  obtain ⟨hcount, hcur, hdis⟩ := hcount
  have hord : ∀ i, (mid.entries i).displacementOrder = (log.entries i).displacementOrder := by
    intro i
    rw [← hmid]
    cases log.active with
    | none => rfl
    | some tx => exact setStatus_order ..
  -- apart from the active transaction, which is rolled back, no status changes
  have hstat : ∀ i, i < log.count → (mid.entries i).status ≠ .active ∧
      ((mid.entries i).status = .superseded ↔ (log.entries i).status = .superseded) := by
    intro i hi
    rw [← hmid]
    cases hact : log.active with
    | none =>
      rw [Option.elim_none]
      refine ⟨fun heq => ?_, Iff.rfl⟩
      rw [h.active_iff i hi, hact] at heq
      cases heq
    | some tx =>
      rw [Option.elim_some]
      by_cases hitx : i = tx
      · have htx := (h.active_iff i hi).mpr (hitx ▸ hact)
        rw [hitx] at htx ⊢
        rw [setStatus_self, htx]
        exact ⟨by rintro ⟨⟩, by rintro ⟨⟩, by rintro ⟨⟩⟩
      · rw [setStatus_of_ne _ _ hitx]
        refine ⟨fun heq => ?_, Iff.rfl⟩
        rw [h.active_iff i hi, hact] at heq
        exact hitx (Option.some.inj heq).symm
  rw [hrol]
  refine ⟨rfl, h.setActive hcount hcur htop (fun i hi _ => (hstat i hi).1) (fun i hi => ?_)
    (fun i => ?_) (hsor.imp fun {i j} hlt => ?_), rfl⟩
  · rw [hord, hdis]
    exact h.order_le i hi
  · have hmem := h.undoes.mem i
    rw [mem_cons] at hmem
    constructor
    · intro hin
      obtain ⟨hlt, hsup'⟩ := hmem.mp (.inr hin)
      refine ⟨hlt, ?_, (hstat i hlt).2.mpr hsup'⟩
      rintro rfl
      exact lt_irrefl _ (hbel i hin)
    · rintro ⟨hlt, hne, hsup'⟩
      exact (hmem.mpr ⟨hlt, (hstat i hlt).2.mp hsup'⟩).resolve_left hne
  · rwa [hord, hord]

theorem Valid.rollback_empty (h : log.Valid n []) : log.rollback n = (log, false) := by
  have hprev : log.previous n = none := h.previous_eq
  rw [TransactionLog.rollback, hprev]

theorem Valid.step (h : log.Valid n undo) {op : TxOp} (hstep : log.step n op = .ok log') :
    ∃ undo', log'.Valid n undo' := by
  cases op with
  | begin stepId =>
    cases hstep
    exact ⟨_, (h.beginTx stepId).2.2.2.2⟩
  | commit tx region contentHash merkleRoot =>
    dsimp only [TransactionLog.step] at hstep
    split at hstep
    · obtain ⟨⟨log', done⟩, hcomm, rfl⟩ := map_ok hstep
      exact ⟨undo, h.commit hcomm⟩
    · cases hstep
  | activate tx =>
    dsimp only [TransactionLog.step] at hstep
    split at hstep
    · rename_i htx
      obtain ⟨⟨log', prev⟩, hact, rfl⟩ := map_ok hstep
      by_cases hcom : (log.entries tx).status = .committed
      · exact ⟨_, (h.activate htx hcom hact).2.2⟩
      · -- a transaction that is not committed is refused
        rw [TransactionLog.activate, if_neg hcom] at hact
        cases hact
        exact ⟨undo, h⟩
    · cases hstep
  | rollback =>
    cases hstep
    cases undo with
    | nil =>
      rw [h.rollback_empty]
      exact ⟨[], h⟩
    | cons top undo => exact ⟨undo, h.rollback.2.1⟩

theorem run_valid (hcap : 4 ≤ n) {ops : List TxOp} (hrun : runTransactions n {} ops = .ok log) :
    ∃ undo, log.Valid n undo := by
  refine foldlM_inv (fun log => ∃ undo, log.Valid n undo) ⟨[], start_valid hcap⟩ ?_ hrun
  rintro log op log' - ⟨undo, h⟩ hstep
  exact h.step hstep

def rollbacks (n k : Nat) (log : TransactionLog) : TransactionLog :=
  (fun log => (log.rollback n).1)^[k] log

/-- Rollbacks in a row restore the displaced transactions from the latest on. -/
theorem Valid.rollbacks (h : log.Valid n undo) {k : Nat} (hk : k < undo.length) :
    (log.rollbacks n (k + 1)).active = undo[k]? ∧
      (log.rollbacks n (k + 1)).Valid n (undo.drop (k + 1)) := by
  induction k generalizing log undo with
  | zero =>
    cases undo with
    | nil => cases hk
    | cons top undo =>
      obtain ⟨hact, hval, -⟩ := h.rollback
      exact ⟨hact, hval⟩
  | succ k ih =>
    cases undo with
    | nil => cases hk
    | cons top undo =>
      obtain ⟨-, hval, -⟩ := h.rollback
      exact ih hval (Nat.lt_of_succ_lt_succ hk)

/-- **The log is an undo stack.**  After any sequence of calls, the displaced
transactions that are still in the ring stand in the order of their displacements, the
latest first, and the first is the rollback target.  The active transaction is the one
with that status.  A claim recycles neither of the two and only drops its own slot from
the stack, an activation pushes the transaction that it displaces, and rollbacks in a row
restore the transactions of the stack one after another. -/
theorem transactions_undo_in_order (hcap : 4 ≤ n) {ops : List TxOp}
    (hrun : runTransactions n {} ops = .ok log) :
    ∃ undo, log.Undoes undo ∧ log.previous n = undo.head? ∧
      (∀ i, i < log.count → ((log.entries i).status = .active ↔ log.active = some i)) ∧
      (∀ i, log.active = some i → i < log.count) ∧
      (∀ stepId log' slot, log.beginTx n stepId = (log', slot) →
        some slot ≠ log.active ∧ some slot ≠ log.previous n ∧ log'.active = log.active ∧
        log'.previous n = log.previous n ∧ (∀ i, i ≠ slot → log'.entries i = log.entries i) ∧
        log'.Undoes (undo.filter (· ≠ slot))) ∧
      (∀ tx, tx < log.count → (log.entries tx).status = .committed →
        (log.displacements ≠ u64Max → ∃ result, log.activate tx = .ok result) ∧
        ∀ log' prev, log.activate tx = .ok (log', prev) →
          prev = log.active ∧ log'.active = some tx ∧
          (∀ displaced, prev = some displaced → log'.previous n = some displaced) ∧
          log'.Undoes (prev.toList ++ undo)) ∧
      (∀ k, k < undo.length → (log.rollbacks n (k + 1)).active = undo[k]? ∧
        (log.rollbacks n (k + 1)).Undoes (undo.drop (k + 1))) ∧
      (undo = [] → log.rollback n = (log, false)) := by
  obtain ⟨undo, h⟩ := run_valid hcap hrun
  refine ⟨undo, h.undoes, h.previous_eq, h.active_iff, h.active_lt, ?_, ?_, ?_, ?_⟩
  · intro stepId log' slot hbegin
    obtain ⟨hactive, htarget, hkept, hother, hvalid⟩ := h.beginTx stepId
    simp only [hbegin] at hactive htarget hkept hvalid hother
    refine ⟨hactive, h.previous_eq ▸ htarget, hkept, ?_, hother, hvalid.undoes⟩
    rw [hvalid.previous_eq, h.previous_eq]
    -- the head of the stack is not the slot of the claim
    cases undo with
    | nil => rfl
    | cons top undo =>
      have hne : top ≠ slot := fun heq => htarget (congrArg some heq.symm)
      rw [filter_cons, if_pos (decide_eq_true hne)]
      rfl
  · intro tx htx hcommitted
    refine ⟨fun hroom => ?_, fun log' prev hactivate => ?_⟩
    · obtain ⟨displaced, hdisplace⟩ := h.displaceActive_total hroom
      rw [TransactionLog.activate, if_pos hcommitted]
      exact ⟨_, bind_of_ok hdisplace⟩
    · obtain ⟨rfl, hactive, hvalid⟩ := h.activate htx hcommitted hactivate
      refine ⟨rfl, hactive, fun displaced hprev => ?_, hvalid.undoes⟩
      rw [hvalid.previous_eq, hprev]
      rfl
  · intro k hk
    obtain ⟨hactive, hvalid⟩ := h.rollbacks hk
    exact ⟨hactive, hvalid.undoes⟩
  · rintro rfl
    exact h.rollback_empty

theorem transactions_undo_in_order_two :
    ∃ log, runTransactions 4 {} [.begin 0, .commit 0 7 1 1, .activate 0, .begin 1, .begin 2,
        .commit 2 9 3 3, .activate 2, .commit 1 8 2 2, .activate 1] = .ok log ∧
      log.active = some 1 ∧ ∃ undo, log.Undoes undo ∧ undo.head? = some 2 ∧
        (log.rollbacks 4 1).active = undo[0]? := by
  obtain ⟨log, hrun, heval⟩ := ok_of_eval (show (runTransactions 4 {} [.begin 0, .commit 0 7 1 1,
    .activate 0, .begin 1, .begin 2, .commit 2 9 3 3, .activate 2, .commit 1 8 2 2,
    .activate 1]).toOption.map (fun log => (log.active, log.previous 4)) = some (some 1, some 2) by
      decide +kernel)
  obtain ⟨hactive, htarget⟩ := Prod.mk.inj heval
  obtain ⟨undo, hundo, hprev, -, -, -, -, hback, -⟩ :=
    transactions_undo_in_order (n := 4) (Nat.le_refl 4) hrun
  have hhead := hprev.symm.trans htarget
  refine ⟨log, hrun, hactive, undo, hundo, hhead, (hback 0 ?_).1⟩
  exact length_pos_of_mem (mem_of_head? hhead)

end TransactionLog
end Crucible
