import Crucible.CipherText

/-! # Recovery of the head and of the history

`record_event` replaces the file HEAD and appends a record to the log, and looks at the result
of neither.  A store that is opened again takes the head from HEAD, if it can be parsed, and
the history from the log.  The theorems say which outcomes of the two writes let an open find
the last commit, and what a crash inside a record does to the commits behind it.
-/
namespace Crucible
open List LogEntry

/-- The files of the store that the head goes to. -/
structure CipherRoot where
  head : Option (List Char) := none
  log : List Char := []

/-- What an open store keeps of the head and the log. -/
structure Cipher where
  head : UInt64 := 0
  log : List LogEntry := []

def parseHead (bytes : List Char) : Option UInt64 := (fromChars 16 bytes).map Prod.fst

def latestCommittedHead (log : List LogEntry) : UInt64 :=
  (log.getLast?.map LogEntry.contentHash).getD 0

/-- `open`: a HEAD that can be parsed overrides the log.  It is read into 32 bytes. -/
def openCipher (root : CipherRoot) : Cipher :=
  let log := loadLog root.log
  { head := (root.head.bind fun bytes => parseHead (bytes.take 32)).getD (latestCommittedHead log)
    log }

/-- The binary search of `hash_at_step` for the first entry behind a step. -/
def firstAfter (log : List LogEntry) (step : UInt64) (lo hi : Nat) : Nat :=
  if lo < hi then
    let mid := lo + (hi - lo) / 2
    if log[mid]?.any (·.stepId ≤ step) then firstAfter log step (mid + 1) hi
    else firstAfter log step lo mid
  else lo
termination_by hi - lo

/-- `hash_at_step`: the last commit before the first entry behind the step. -/
def Cipher.hashAtStep (c : Cipher) (step : UInt64) : UInt64 :=
  latestCommittedHead (c.log.take (firstAfter c.log step 0 c.log.length))

/-- A call of `record_event`, with what reaches the disk: whether HEAD is replaced, and how
many bytes of the record the log gets. -/
structure Attempt where
  entry : LogEntry
  headWritten : Bool
  logBytes : Nat

def Attempt.Logged (a : Attempt) : Prop := a.entry.record.length ≤ a.logBytes

instance (a : Attempt) : Decidable a.Logged := inferInstanceAs (Decidable (_ ≤ _))

/-- `advance_head`, behind its contracts. -/
def advanceHead (s : Cipher × CipherRoot) (a : Attempt) : Cipher × CipherRoot :=
  ({ head := a.entry.contentHash, log := s.1.log ++ [a.entry] },
    { head := if a.headWritten then some (hex16 a.entry.contentHash ++ ['\n']) else s.2.head
      log := s.2.log ++ a.entry.record.take a.logBytes })

/-- `record_event`.  A zero hash or a step that goes back aborts. -/
def recordEvent (s : Cipher × CipherRoot) (a : Attempt) : Option (Cipher × CipherRoot) :=
  if a.entry.contentHash = 0 ∨ s.1.log.getLast?.any (a.entry.stepId < ·.stepId) then none
  else some (advanceHead s a)

def recordEvents (s : Cipher × CipherRoot) (attempts : List Attempt) :
    Option (Cipher × CipherRoot) :=
  attempts.foldlM recordEvent s

def newCipher : Cipher × CipherRoot := ({}, {})

/-! ### Runs of calls -/

section Runs
variable {s s' : Cipher × CipherRoot} {attempts : List Attempt}

theorem recordEvent_iff (hord : InStepOrder s.1.log) (a : Attempt) : recordEvent s a = some s' ↔
      a.entry.contentHash ≠ 0 ∧ InStepOrder (s.1.log ++ [a.entry]) ∧ s' = advanceHead s a := by
  rw [recordEvent, inStepOrder_snoc]
  split
  case isTrue h => tauto
  case isFalse h =>
    simp only [Option.some.injEq]
    tauto

theorem recordEvents_iff (hord : InStepOrder s.1.log) :
    recordEvents s attempts = some s' ↔ (∀ a ∈ attempts, a.entry.contentHash ≠ 0) ∧
      InStepOrder (s.1.log ++ attempts.map Attempt.entry) ∧ s' = attempts.foldl advanceHead s := by
  induction attempts generalizing s with
  | nil => simp [recordEvents, hord, eq_comm]
  | cons a attempts ih =>
    rw [recordEvents, foldlM_cons, Option.bind_eq_bind, Option.bind_eq_some_iff]
    rw [forall_mem_cons, map_cons, append_cons]
    constructor
    · rintro ⟨mid, hmid, hrest⟩
      obtain ⟨hne, hnext, rfl⟩ := (recordEvent_iff hord a).mp hmid
      obtain ⟨hall, hrest⟩ := (ih hnext).mp hrest
      exact ⟨⟨hne, hall⟩, hrest⟩
    · rintro ⟨⟨hne, hall⟩, hrest⟩
      have hnext : InStepOrder (advanceHead s a).1.log :=
        hrest.1.sublist (sublist_append_left _ _)
      exact ⟨_, (recordEvent_iff hord a).mpr ⟨hne, hnext, rfl⟩, (ih hnext).mpr ⟨hall, hrest⟩⟩

theorem foldl_advanceHead (s : Cipher × CipherRoot) (attempts : List Attempt) :
    (attempts.foldl advanceHead s).1.log = s.1.log ++ attempts.map Attempt.entry ∧
      (attempts.foldl advanceHead s).2.log =
        s.2.log ++ attempts.flatMap (fun a => a.entry.record.take a.logBytes) ∧
      (attempts.foldl advanceHead s).2.head = ((attempts.filter Attempt.headWritten).getLast?.map
        fun a => hex16 a.entry.contentHash ++ ['\n']).or s.2.head := by
  induction attempts generalizing s with
  | nil => simp
  | cons a attempts ih =>
    obtain ⟨hlog, htext, hhead⟩ := ih (advanceHead s a)
    rw [foldl_cons, hlog, htext, hhead]
    cases hw : a.headWritten <;> simp [advanceHead, hw, getLast?_cons]

end Runs
open Attempt

/-! ### The head after a reopen -/

theorem parseHead_hex16 (hash : UInt64) :
    parseHead ((hex16 hash ++ ['\n']).take 32) = some hash := by
  have hlen : (hex16 hash ++ ['\n']).length ≤ 32 := by simp [hex16, hexDigits]
  have hlt := hash.toNat_lt
  rw [take_of_length_le hlen, parseHead, fromChars_append (hex16_digits hash) rfl,
    value_hex16, if_neg, UInt64.ofNat_toNat]
  · rfl
  · simpa [hex16_ne_nil] using hlt

section Recovery
variable {attempts : List Attempt}

theorem flatMap_logged (h : ∀ a ∈ attempts, a.logBytes = 0 ∨ a.Logged) :
    attempts.flatMap (fun a => a.entry.record.take a.logBytes) =
      ((attempts.filter (·.Logged)).map entry).flatMap record := by
  induction attempts with
  | nil => rfl
  | cons a attempts ih =>
    rw [forall_mem_cons] at h
    rw [flatMap_cons, ih h.2]
    by_cases ha : a.Logged
    · simp [ha, take_of_length_le (show a.entry.record.length ≤ a.logBytes from ha)]
    · simp [ha, h.1.resolve_right ha]

/-- **The head that a reopen reports** is that of the last call that replaced HEAD; if none
did, then that of the last call whose record is in the log. -/
theorem head_recovered_iff {last : Attempt} {s : Cipher × CipherRoot}
    (hwhole : ∀ a ∈ attempts ++ [last], a.logBytes = 0 ∨ a.Logged)
    (hrun : recordEvents newCipher (attempts ++ [last]) = some s) :
    (openCipher s.2).head = last.entry.contentHash ↔
      ∃ a, ((attempts ++ [last]).filter headWritten).getLast?.or
        ((attempts ++ [last]).filter (·.Logged)).getLast? = some a ∧
        a.entry.contentHash = last.entry.contentHash := by
  have hstart : InStepOrder newCipher.1.log := List.Pairwise.nil
  obtain ⟨hnonzero, horder, rfl⟩ := (recordEvents_iff hstart).mp hrun
  obtain ⟨-, htext, hhead⟩ := foldl_advanceHead newCipher (attempts ++ [last])
  have hlast := hnonzero last (by simp)
  generalize attempts ++ [last] = calls at *
  have hlog : loadLog (calls.foldl advanceHead newCipher).2.log =
      (calls.filter (·.Logged)).map entry := by
    have hsub : InStepOrder ((calls.filter (·.Logged)).map entry) :=
      List.Pairwise.sublist (filter_sublist.map _) horder
    have h := loadLog_records hsub []
    rw [append_nil] at h
    rw [htext, flatMap_logged hwhole]
    exact h
  rw [openCipher, hhead, hlog]
  cases hw : (calls.filter headWritten).getLast? with
  | some a => simp [parseHead_hex16]
  | none =>
    rw [latestCommittedHead, getLast?_map]
    cases hl : (calls.filter (·.Logged)).getLast? with
    | some a => simp [newCipher]
    | none => simpa [newCipher] using Ne.symm hlast

theorem head_recovered_iff_lostRecord : ∃ s,
    recordEvents newCipher ([⟨⟨1, 7, 1⟩, true, 64⟩] ++ [⟨⟨2, 8, 1⟩, true, 0⟩]) = some s ∧
      (openCipher s.2).head = 8 := by
  have hrun : recordEvents newCipher ([⟨⟨1, 7, 1⟩, true, 64⟩] ++ [⟨⟨2, 8, 1⟩, true, 0⟩]) =
    some _ := rfl
  exact ⟨_, hrun, (head_recovered_iff (by decide) hrun).mpr ⟨_, rfl, rfl⟩⟩

/-- The last HEAD cannot be replaced.  The one before it is well formed and overrides the log. -/
theorem stale_head_wins : ∃ s,
    recordEvents newCipher [⟨⟨1, 7, 1⟩, true, 64⟩, ⟨⟨2, 8, 1⟩, false, 64⟩] = some s ∧
      (openCipher s.2).head = 7 ∧ (openCipher s.2).log = [⟨1, 7, 1⟩, ⟨2, 8, 1⟩] :=
  ⟨_, rfl, by decide, by decide⟩

end Recovery

/-! ### The history after a crash -/

section Search
variable {log : List LogEntry} {step : UInt64}

theorem InStepOrder.split (hord : InStepOrder log) {mid : Nat} (hmid : mid < log.length) :
    (∀ e ∈ log.take (mid + 1), e.stepId ≤ log[mid].stepId) ∧
      ∀ e ∈ log.drop mid, log[mid].stepId ≤ e.stepId := by
  have hdrop : log.drop mid = log[mid] :: log.drop (mid + 1) := drop_eq_getElem_cons hmid
  rw [← take_append_drop mid log, hdrop, InStepOrder, pairwise_append, pairwise_cons] at hord
  obtain ⟨-, ⟨hrig, -⟩, hleft⟩ := hord
  have hself : log[mid].stepId ≤ log[mid].stepId := UInt64.le_refl _
  rw [hdrop, take_succ_eq_append_getElem hmid]
  exact ⟨forall_mem_append.mpr ⟨fun e he => hleft e he _ mem_cons_self,
    forall_mem_singleton.mpr hself⟩, forall_mem_cons.mpr ⟨hself, hrig⟩⟩

/-- The binary search finds the end of the entries up to a step. -/
theorem take_firstAfter (hord : InStepOrder log) {lo hi : Nat} (hle : lo ≤ hi)
    (hhi : hi ≤ log.length) (hbel : ∀ e ∈ log.take lo, e.stepId ≤ step)
    (habove : ∀ e ∈ log.drop hi, ¬ e.stepId ≤ step) :
    log.take (firstAfter log step lo hi) = log.filter (·.stepId ≤ step) := by
  induction lo, hi using firstAfter.induct log step with
  | case1 lo hi hlt mid hmid ih =>
    have hlen : mid < log.length := by omega
    rw [firstAfter, if_pos hlt, if_pos hmid]
    rw [getElem?_eq_getElem hlen, Option.any_some, decide_eq_true_eq] at hmid
    exact ih (by omega) hhi (fun e he => UInt64.le_trans ((hord.split hlen).1 e he) hmid) habove
  | case2 lo hi hlt mid hmid ih =>
    have hlen : mid < log.length := by omega
    rw [firstAfter, if_pos hlt, if_neg hmid]
    rw [getElem?_eq_getElem hlen, Option.any_some, decide_eq_true_eq] at hmid
    exact ih (by omega) (by omega) hbel fun e he hstep =>
      hmid (UInt64.le_trans ((hord.split hlen).2 e he) hstep)
  | case3 lo hi hlt =>
    obtain rfl : lo = hi := by omega
    rw [firstAfter, if_neg hlt]
    conv_rhs => rw [← take_append_drop lo log, filter_append]
    rw [filter_eq_self.mpr (by simpa using hbel),
      filter_eq_nil_iff.mpr (by simpa using habove), append_nil]

/-- **`hash_at_step` gives the last commit up to a step.** -/
theorem hashAtStep_eq {c : Cipher} (hord : InStepOrder c.log) (step : UInt64) :
    c.hashAtStep step = latestCommittedHead (c.log.filter (·.stepId ≤ step)) := by
  rw [Cipher.hashAtStep, take_firstAfter hord zero_le le_rfl] <;> simp

end Search

/-- A store whose open shows the given commits, each at its step. -/
def Recovers (root : CipherRoot) (completed : List LogEntry) : Prop :=
  completed.Sublist (openCipher root).log ∧ ∀ step, (openCipher root).hashAtStep step =
      latestCommittedHead (completed.filter (·.stepId ≤ step))

/-- Calls in one process, a last one that a crash cuts, and calls in a process that opens the
store again. -/
def crashRun (before : List Attempt) (torn : Attempt) (after : List Attempt) :
    Option (Cipher × CipherRoot) := do
  let s ← recordEvents newCipher before
  let s ← recordEvent s torn
  recordEvents (openCipher s.2, s.2) after

/-- The commits whose record is in the log as a whole. -/
def completed (attempts : List Attempt) : List LogEntry :=
  (attempts.filter (·.Logged)).map entry

section Torn
variable {digits : List Char} {base : Nat}

theorem valueFrom_lt (hdig : ∀ c ∈ digits, digitOf c < base) (v : Nat) :
    valueFrom base v digits < base ^ digits.length * (v + 1) := by
  induction digits generalizing v with
  | nil => simp [valueFrom]
  | cons c digits ih =>
    rw [forall_mem_cons] at hdig
    refine lt_of_lt_of_le (ih hdig.2 (base * v + digitOf c)) ?_
    rw [length_cons, pow_succ, mul_assoc]
    refine Nat.mul_le_mul_left _ ?_
    rw [Nat.mul_succ]
    omega

theorem take_toChars_ne_zero {v : UInt64} {k : Nat} (hk : 0 < k) (hle : k ≤ (toChars v).length)
    (hv : ¬ (v = 0 ∧ k = 1)) : valueFrom 10 0 ((toChars v).take k) ≠ 0 := by
  intro hzero
  have hval : valueFrom 10 0 (toChars v) = v.toNat := by simp [valueFrom_toChars]
  rw [← take_append_drop k (toChars v), valueFrom_append, hzero] at hval
  rcases Nat.eq_or_lt_of_le hle with rfl | hlt
  · rw [drop_length] at hval
    obtain rfl : v = 0 := UInt64.toNat_inj.mp hval.symm
    exact hv ⟨rfl, rfl⟩
  · have hsmall := valueFrom_lt
      (fun c hc => toChars_digits v c (mem_of_mem_drop (i := k) hc)) 0
    rw [hval, length_drop, zero_add, mul_one,
      ← Nat.length_toDigits_le_iff (by decide) (Nat.sub_pos_of_lt hlt)] at hsmall
    change (toChars v).length ≤ _ at hsmall
    omega

/-- A record behind a piece of a line is lost, or its step is another one. -/
theorem parseLine_torn {torn e x : LogEntry} {k : Nat} (hk : 0 < k)
    (hzero : ¬ (torn.stepId = 0 ∧ k = 1))
    (hpar : parseLine (torn.line.take k ++ e.line) = some x) : x ≠ e := by
  have htwo := count_comma_of_parseLine (parseLine_line e)
  rcases lt_or_ge (toChars torn.stepId).length k with hlt | hge
  · -- the piece has a comma, and the line too many of them
    have hcount := count_comma_of_parseLine hpar
    have hmem : ',' ∈ torn.line.take k := by
      obtain ⟨m, hm⟩ : ∃ m, k - (toChars torn.stepId).length = m + 1 :=
        Nat.exists_eq_add_one.mpr (Nat.sub_pos_of_lt hlt)
      simp [line, take_append, hm]
    have := count_pos_iff.mpr hmem
    rw [count_append] at hcount
    omega
  · -- the piece has digits only, and they go before the step
    have htake : torn.line.take k = (toChars torn.stepId).take k :=
      take_append_of_le_length hge
    have hpos := take_toChars_ne_zero hk hge hzero
    have hdig : ∀ c ∈ (toChars torn.stepId).take k, digitOf c < 10 :=
      fun c hc => toChars_digits _ c (mem_of_mem_take hc)
    rw [htake, parseLine_behind hdig, parseU64_digits
      (forall_mem_append.mpr ⟨hdig, toChars_digits _⟩), valueFrom_append,
      valueFrom_toChars] at hpar
    obtain ⟨s, hs, rfl⟩ := Option.map_eq_some_iff.mp hpar
    split at hs
    · cases hs
    · rename_i hfits
      intro heq
      have hstep : s.toNat = e.stepId.toNat := congrArg (·.stepId.toNat) heq
      rw [← Option.some.inj hs, UInt64.toNat_ofNat_of_lt'
        (Nat.lt_of_not_le (not_or.mp hfits).2), Nat.add_eq_right, Nat.mul_eq_zero] at hstep
      rcases hstep with hstep | hstep
      · exact absurd hstep (Nat.pow_pos (by decide)).ne'
      · exact hpos hstep

end Torn

theorem parseLine_zero (e : LogEntry) : parseLine ('0' :: e.line) = some e := by
  have hdig : ∀ c ∈ ['0'], digitOf c < 10 := forall_mem_singleton.mpr (by decide)
  have hlt := e.stepId.toNat_lt
  have hval : valueFrom 10 0 (['0'] ++ toChars e.stepId) = e.stepId.toNat := by
    rw [valueFrom_append, valueFrom_toChars]
    simp [valueFrom, digitOf]
  have hstep : parseU64 10 (['0'] ++ toChars e.stepId) = some e.stepId := by
    rw [parseU64_digits (forall_mem_append.mpr ⟨hdig, toChars_digits _⟩), hval]
    simpa using hlt
  have h := parseLine_behind hdig e
  rw [hstep] at h
  exact h

section Crash
variable {before after : List LogEntry} {torn : LogEntry} {k : Nat}

theorem loadLog_flatMap {entries : List LogEntry} (hord : InStepOrder entries) :
    loadLog (entries.flatMap record) = entries := by
  have h := loadLog_records hord []
  rwa [append_nil] at h

theorem foldl_loadLine_zero (hord : InStepOrder (before ++ after)) :
    (getLines ('0' :: after.flatMap record)).foldl loadLine before = before ++ after := by
  cases after with
  | nil => simp [getLines, loadLine, parseLine]
  | cons e after =>
    have hline : '\n' ∉ '0' :: e.line := by simpa using e.newline_not_mem_line
    rw [append_cons] at hord
    have hnext := loadLine_of_parse (parseLine_zero e)
      (hord.sublist (sublist_append_left _ _))
    have hlin := getLines_records after []
    rw [append_nil, getLines, append_nil] at hlin
    rw [flatMap_cons, record, append_assoc, singleton_append,
      ← cons_append, getLines_append hline, hlin, foldl_cons, hnext,
      foldl_loadLine after hord, ← append_cons]

theorem loadLog_harmless (before after : List LogEntry) {torn : Attempt}
    (hcut : torn.logBytes = 0 ∨ torn.Logged ∨ torn.entry.stepId = 0 ∧ torn.logBytes = 1)
    (hord : InStepOrder (before ++ (completed [torn] ++ after))) :
    loadLog (before.flatMap record ++ (torn.entry.record.take torn.logBytes ++
      after.flatMap record)) = before ++ (completed [torn] ++ after) := by
  by_cases hall : torn.Logged
  · rw [← loadLog_flatMap hord, take_of_length_le hall]
    simp [completed, hall]
  · rw [show completed [torn] = [] by simp [completed, hall]] at hord ⊢
    rcases hcut with hcut | hcut | ⟨hzero, hone⟩
    · rw [← loadLog_flatMap hord, hcut]
      simp
    · exact absurd hcut hall
    · have htake : torn.entry.record.take torn.logBytes = ['0'] := by
        simp [hone, record, line, hzero, toChars]
      rw [htake, loadLog_records (hord.sublist (sublist_append_left _ _))]
      exact foldl_loadLine_zero hord

end Crash

section Crash
variable {before after : List Attempt} {torn : Attempt}

theorem completed_logged (h : ∀ a ∈ before, a.Logged) :
    completed before = before.map entry :=
  congrArg _ (filter_eq_self.mpr (by simpa using h))

theorem completed_crash (hbef : ∀ a ∈ before, a.Logged) (haft : ∀ a ∈ after, a.Logged) :
    completed (before ++ torn :: after) =
      before.map entry ++ (completed [torn] ++ after.map entry) := by
  rw [← completed_logged hbef, ← completed_logged haft, ← singleton_append]
  simp only [completed, filter_append, map_append]

theorem flatMap_record (h : ∀ a ∈ before, a.Logged) :
    before.flatMap (fun a => a.entry.record.take a.logBytes) =
      (before.map entry).flatMap record := by
  rw [flatMap_logged fun a ha => .inr (h a ha)]
  exact congrArg _ (completed_logged h)

theorem crashRun_eq (hbef : ∀ a ∈ before, a.Logged)
    (hnon : ∀ a ∈ before ++ [torn], a.entry.contentHash ≠ 0)
    (hord : InStepOrder ((before ++ [torn]).map entry)) :
    ∃ root, root.log = (before.map entry).flatMap record ++
        torn.entry.record.take torn.logBytes ∧
      ∀ later, crashRun before torn later = recordEvents (openCipher root, root) later := by
  have hstart : InStepOrder newCipher.1.log := List.Pairwise.nil
  have hrun := (recordEvents_iff hstart).mpr ⟨hnon, hord, rfl⟩
  obtain ⟨-, htext, -⟩ := foldl_advanceHead newCipher before
  refine ⟨((before ++ [torn]).foldl advanceHead newCipher).2, ?_, fun later => ?_⟩
  · rw [flatMap_record hbef] at htext
    rw [foldl_append, foldl_cons, advanceHead, htext]
    rfl
  · rw [recordEvents, foldlM_append] at hrun
    simp only [foldlM_cons, foldlM_nil, bind_pure] at hrun
    simp only [crashRun, recordEvents, ← bind_assoc, hrun]
    rfl

/-- **The history after a crash.**  Every commit whose record was written as a whole is there
at each later open, and `hash_at_step` gives the last one up to a step, exactly if the crash
left nothing of the record that it cut, or all of it, or only the digit of step zero. -/
theorem history_recovered_iff (hbefore : ∀ a ∈ before, a.Logged) (hafter : ∀ a ∈ after, a.Logged)
    (hnonzero : ∀ a ∈ before ++ torn :: after, a.entry.contentHash ≠ 0)
    (horder : InStepOrder ((before ++ torn :: after).map entry)) (hne : after ≠ []) :
    (∀ later, later <+: after → ∃ s, crashRun before torn later = some s ∧
      Recovers s.2 (completed (before ++ torn :: later))) ↔
      torn.logBytes = 0 ∨ torn.Logged ∨ torn.entry.stepId = 0 ∧ torn.logBytes = 1 := by
  have hleft : (before ++ [torn]).Sublist (before ++ torn :: after) := by simp
  obtain ⟨root, hroot, hcrash⟩ := crashRun_eq hbefore
    (fun a ha => hnonzero a (hleft.subset ha)) (horder.sublist (hleft.map _))
  have hopened : InStepOrder (openCipher root).log := loadLog_inStepOrder root.log
  have hnonzero' : ∀ {later}, later <+: after → ∀ a ∈ later, a.entry.contentHash ≠ 0 :=
    fun h a ha => hnonzero a (by simp [h.subset ha])
  constructor
  · intro hall
    obtain ⟨e, rest, rfl⟩ := exists_cons_of_ne_nil hne
    obtain ⟨s, hrun, hsub, -⟩ := hall [e] (by simp)
    rw [hcrash] at hrun
    obtain ⟨-, -, rfl⟩ := (recordEvents_iff hopened).mp hrun
    by_contra hcut
    obtain ⟨hk, hcut⟩ := not_or.mp hcut
    obtain ⟨htorn, hzero⟩ := not_or.mp hcut
    have hbody : torn.logBytes ≤ torn.entry.line.length :=
      Nat.le_of_lt_succ (by simpa [Attempt.Logged, LogEntry.record] using htorn)
    have hwhole : e.entry.record.take e.logBytes = e.entry.record :=
      take_of_length_le (hafter e mem_cons_self)
    -- the record comes behind what is left of the one before it, on one line
    have hline : '\n' ∉ torn.entry.line.take torn.logBytes ++ e.entry.line := by
      simp only [mem_append, not_or]
      exact ⟨fun h => torn.entry.newline_not_mem_line (mem_of_mem_take h),
        e.entry.newline_not_mem_line⟩
    have hload : (openCipher ([e].foldl advanceHead (openCipher root, root)).2).log =
        loadLine (before.map entry)
          (torn.entry.line.take torn.logBytes ++ e.entry.line) := by
      have horder' := horder.sublist ((sublist_append_left before _).map entry)
      show loadLog (root.log ++ e.entry.record.take e.logBytes) = _
      rw [hwhole, hroot, LogEntry.record, take_append_of_le_length hbody, append_assoc,
        loadLog_records horder', LogEntry.record, ← append_assoc, getLines_append hline]
      rfl
    rw [hload, completed_crash hbefore (by simpa using hafter e mem_cons_self),
      show completed [torn] = [] by simp [completed, htorn], loadLine] at hsub
    split at hsub
    · simpa using hsub.length_le
    · split at hsub
      · simpa using hsub.length_le
      · rename_i x hparse _
        have hx := parseLine_torn (Nat.pos_of_ne_zero hk) hzero hparse
        simp_all
  · intro hcut later hlater
    have hlogged : ∀ a ∈ later, a.Logged := fun a ha => hafter a (hlater.subset ha)
    have hentries : InStepOrder (completed (before ++ torn :: later)) := by
      refine horder.sublist (filter_sublist.map _ |>.trans (Sublist.map _ ?_))
      exact (Sublist.refl before).append (hlater.sublist.cons_cons torn)
    rw [completed_crash hbefore hlogged] at hentries ⊢
    have hopen : (openCipher root).log = before.map entry ++ completed [torn] := by
      have h := loadLog_harmless (before.map entry) [] hcut (hentries.sublist (by simp))
      simpa [hroot, openCipher] using h
    obtain ⟨-, htext, -⟩ := foldl_advanceHead (openCipher root, root) later
    rw [flatMap_record hlogged] at htext
    have hlog := loadLog_harmless _ _ hcut hentries
    rw [← append_assoc, ← hroot, ← htext] at hlog
    refine ⟨_, (hcrash later).trans ((recordEvents_iff hopened).mpr
      ⟨hnonzero' hlater, by rw [hopen, append_assoc]; exact hentries, rfl⟩), ?_, ?_⟩
    · exact hlog ▸ Sublist.refl _
    · intro step
      have horder' : InStepOrder
          (openCipher (later.foldl advanceHead (openCipher root, root)).2).log :=
        loadLog_inStepOrder _
      rw [hashAtStep_eq horder', ← hlog]
      rfl

end Crash

theorem history_recovered_iff_whole :
    ∃ s, crashRun [⟨⟨1, 7, 1⟩, true, 64⟩] ⟨⟨1, 9, 1⟩, true, 64⟩ [⟨⟨2, 8, 1⟩, true, 64⟩] = some s ∧
      Recovers s.2 (completed
        ([⟨⟨1, 7, 1⟩, true, 64⟩] ++ ⟨⟨1, 9, 1⟩, true, 64⟩ :: [⟨⟨2, 8, 1⟩, true, 64⟩])) :=
  (history_recovered_iff (by decide) (by decide) (by decide)
    (by rw [InStepOrder]; decide) (by decide)).mpr (.inr (.inl (by decide))) _
    (prefix_refl [(⟨⟨2, 8, 1⟩, true, 64⟩ : Attempt)])

/-- One byte of the record of step 5 is left, and the record of step 6 is read as step 56. -/
theorem torn_digit_moves_step : ∃ s,
    crashRun [] ⟨⟨5, 7, 1⟩, true, 1⟩ [⟨⟨6, 8, 1⟩, true, 64⟩] = some s ∧
      (openCipher s.2).log = [⟨56, 8, 1⟩] ∧
      ¬ Recovers s.2 (completed [⟨⟨5, 7, 1⟩, true, 1⟩, ⟨⟨6, 8, 1⟩, true, 64⟩]) := by
  refine ⟨_, rfl, by decide, fun h => ?_⟩
  have hlost : ¬ [(⟨6, 8, 1⟩ : LogEntry)].Sublist [⟨56, 8, 1⟩] := by decide
  exact hlost h.1

end Crucible
