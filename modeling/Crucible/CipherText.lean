import Mathlib.Data.List.Basic
import Mathlib.Data.List.TakeWhile
import Mathlib.Algebra.Order.Ring.Nat

/-! # The text of the head log

`advance_head` writes one line for each commit, `step,hash,time`, with the hash in sixteen
hexadecimal digits.  `load_log` reads the lines back and skips those that it cannot parse.
A line that is written is read as it was; what is read from a line with a piece of another
one before it is the subject of `parseLine_behind` and `count_comma_of_parseLine`.
-/
namespace Crucible
open List

/-! ### Numbers -/

/-- The digit that a character stands for, in any base up to 36. -/
def digitOf (c : Char) : Nat :=
  if c.isDigit then c.toNat - '0'.toNat
  else if c.isLower then c.toNat - 'a'.toNat + 10
  else if c.isUpper then c.toNat - 'A'.toNat + 10
  else 36

/-- The number that digits stand for, behind the number `v`. -/
def valueFrom (base v : Nat) (digits : List Char) : Nat :=
  digits.foldl (fun v c => base * v + digitOf c) v

/-- `std::from_chars` for a `uint64_t`: the number at the start of a text, and the text behind
it.  There is none without a digit, or if the number does not fit. -/
def fromChars (base : Nat) (text : List Char) : Option (UInt64 × List Char) :=
  let digits := text.takeWhile (digitOf · < base)
  let value := valueFrom base 0 digits
  if digits = [] ∨ 2 ^ 64 ≤ value then none
  else some (.ofNat value, text.dropWhile (digitOf · < base))

/-- `parse_u64`: the text is a number and nothing else. -/
def parseU64 (base : Nat) (text : List Char) : Option UInt64 :=
  (fromChars base text).bind fun out => if out.2 = [] then some out.1 else none

/-- `std::to_chars`. -/
def toChars (value : UInt64) : List Char := Nat.toDigits 10 value.toNat

/-- The last `n` hexadecimal digits of a number. -/
def hexDigits : Nat → Nat → List Char
  | 0, _ => []
  | n + 1, value => hexDigits n (value / 16) ++ [Nat.digitChar (value % 16)]

def hex16 (value : UInt64) : List Char := hexDigits 16 value.toNat

section Numbers
variable {base : Nat} {digits rest : List Char}

theorem fromChars_append (hdig : ∀ c ∈ digits, digitOf c < base)
    (hrest : rest.takeWhile (digitOf · < base) = []) :
    fromChars base (digits ++ rest) = if digits = [] ∨ 2 ^ 64 ≤ valueFrom base 0 digits then none
      else some (.ofNat (valueFrom base 0 digits), rest) := by
  have hall : ∀ c ∈ digits, decide (digitOf c < base) = true := by simpa using hdig
  have hdrop : rest.dropWhile (digitOf · < base) = rest := by
    simpa [hrest] using rest.takeWhile_append_dropWhile (p := (digitOf · < base))
  simp only [fromChars, takeWhile_append_of_pos hall, dropWhile_append_of_pos hall,
    hrest, hdrop, append_nil]

theorem parseU64_digits (hdig : ∀ c ∈ digits, digitOf c < base) :
    parseU64 base digits = if digits = [] ∨ 2 ^ 64 ≤ valueFrom base 0 digits then none
      else some (.ofNat (valueFrom base 0 digits)) := by
  rw [parseU64, ← append_nil digits, fromChars_append hdig rfl, append_nil]
  split <;> rfl

theorem digits_of_parseU64 {text : List Char} {v : UInt64} (h : parseU64 base text = some v) :
    ∀ c ∈ text, digitOf c < base := by
  obtain ⟨out, hout, hrest⟩ := Option.bind_eq_some_iff.mp h
  rw [fromChars] at hout
  split at hout
  · cases hout
  · cases hout
    split at hrest
    case isTrue hnil => simpa [dropWhile_eq_nil_iff] using hnil
    case isFalse => cases hrest

theorem valueFrom_append (v : Nat) (left right : List Char) :
    valueFrom base v (left ++ right) = valueFrom base (valueFrom base v left) right :=
  foldl_append

end Numbers

theorem digitOf_of_isDigit {c : Char} (h : c.isDigit = true) : digitOf c = c.toNat - '0'.toNat :=
  if_pos h

theorem digitOf_digitChar : ∀ d < 16, digitOf (Nat.digitChar d) = d := by decide

theorem toChars_digits (v : UInt64) : ∀ c ∈ toChars v, digitOf c < 10 := by
  intro c hc
  have hdig := Nat.isDigit_of_mem_toDigits (by decide) (by decide) hc
  rw [digitOf_of_isDigit hdig]
  simp only [Char.isDigit, Bool.and_eq_true, decide_eq_true_eq, UInt32.le_iff_toNat_le] at hdig
  have : c.toNat = c.val.toNat := rfl
  have h9 : '9'.val.toNat = 57 := rfl
  have : '0'.toNat = 48 := rfl
  omega

theorem valueFrom_toChars (v : Nat) (n : UInt64) :
    valueFrom 10 v (toChars n) = 10 ^ (toChars n).length * v + n.toNat := by
  have hsame : valueFrom 10 v (toChars n) = Nat.ofDigitChars 10 (toChars n) v := by
    refine foldl_ext _ _ _ fun a c hc => ?_
    rw [digitOf_of_isDigit (Nat.isDigit_of_mem_toDigits (by decide) (by decide) hc)]
  rw [hsame, Nat.ofDigitChars_eq_ofDigitChars_zero, toChars, Nat.ofDigitChars_ten_toDigits]

theorem hexDigits_digits (n v : Nat) : ∀ c ∈ hexDigits n v, digitOf c < 16 := by
  induction n generalizing v with
  | zero => exact fun c hc => absurd hc (not_mem_nil)
  | succ n ih =>
    have hlast := Nat.mod_lt v (show 0 < 16 by decide)
    refine forall_mem_append.mpr ⟨ih _, forall_mem_singleton.mpr ?_⟩
    rwa [digitOf_digitChar _ hlast]

theorem valueFrom_hexDigits (n v : Nat) : valueFrom 16 0 (hexDigits n v) = v % 16 ^ n := by
  induction n generalizing v with
  | zero => simp [hexDigits, valueFrom, Nat.mod_one]
  | succ n ih =>
    have hlast := digitOf_digitChar _ (Nat.mod_lt v (show 0 < 16 by decide))
    rw [hexDigits, valueFrom_append, ih, Nat.pow_succ', Nat.mod_mul]
    show 16 * _ + digitOf _ = _
    rw [hlast, add_comm]

theorem hex16_digits (v : UInt64) : ∀ c ∈ hex16 v, digitOf c < 16 := hexDigits_digits _ _

theorem hex16_ne_nil (v : UInt64) : hex16 v ≠ [] := by simp [hex16, hexDigits]

theorem parse_toChars (v : UInt64) : parseU64 10 (toChars v) = some v := by
  have hval : valueFrom 10 0 (toChars v) = v.toNat := by simp [valueFrom_toChars]
  have hlt := v.toNat_lt
  rw [parseU64_digits (toChars_digits v), hval]
  simpa [toChars, Nat.toDigits_ne_nil] using hlt

theorem value_hex16 (v : UInt64) : valueFrom 16 0 (hex16 v) = v.toNat := by
  rw [hex16, valueFrom_hexDigits]
  exact Nat.mod_eq_of_lt v.toNat_lt

theorem parse_hex16 (v : UInt64) : parseU64 16 (hex16 v) = some v := by
  have hlt := v.toNat_lt
  rw [parseU64_digits (hex16_digits v), value_hex16]
  simpa [hex16_ne_nil] using hlt

/-! ### Lines -/

/-- A commit of the head log.  Every entry of the log is a `StoreCommitted` event. -/
structure LogEntry where
  stepId : UInt64
  contentHash : UInt64
  ts : UInt64
  deriving DecidableEq

def LogEntry.line (e : LogEntry) : List Char :=
  toChars e.stepId ++ ',' :: (hex16 e.contentHash ++ ',' :: toChars e.ts)

/-- What `advance_head` appends to the log. -/
def LogEntry.record (e : LogEntry) : List Char := e.line ++ ['\n']

/-- A line of `load_log`: two commas, and a number before, between and behind them. -/
def parseLine (line : List Char) : Option LogEntry :=
  let first := line.takeWhile (· ≠ ',')
  let after := line.dropWhile (· ≠ ',')
  let second := after.tail.takeWhile (· ≠ ',')
  let third := after.tail.dropWhile (· ≠ ',')
  if after = [] ∨ third = [] then none
  else do
    let stepId ← parseU64 10 first
    let contentHash ← parseU64 16 second
    let ts ← parseU64 10 third.tail
    some { stepId, contentHash, ts }

/-- The lines that `std::getline` gives.  There is none behind a newline at the end. -/
def getLines : List Char → List (List Char)
  | [] => []
  | c :: text =>
    if c = '\n' then [] :: getLines text
    else (c :: (getLines text).headD []) :: (getLines text).tail

/-- A line of the log goes behind the entries so far, unless it cannot be parsed or its step is
before that of the last entry. -/
def loadLine (log : List LogEntry) (line : List Char) : List LogEntry :=
  match parseLine line with
  | none => log
  | some e => if log.getLast?.any (e.stepId < ·.stepId) then log else log ++ [e]

def loadLog (text : List Char) : List LogEntry := (getLines text).foldl loadLine []

section Lines
variable {base : Nat} {digits : List Char}

theorem no_comma (hdig : ∀ c ∈ digits, digitOf c < base) (hbase : base ≤ 16) :
    ∀ c ∈ digits, decide (c ≠ ',') = true := by
  intro c hc
  refine decide_eq_true ?_
  rintro rfl
  have : digitOf ',' = 36 := rfl
  have := hdig _ hc
  omega

theorem count_comma (hdig : ∀ c ∈ digits, digitOf c < base) (hbase : base ≤ 16) :
    digits.count ',' = 0 :=
  count_eq_zero.mpr fun hmem => by simpa using no_comma hdig hbase _ hmem

/-- **A line with digits before it** is read as the entry with those digits before its step. -/
theorem parseLine_behind (hdig : ∀ c ∈ digits, digitOf c < 10) (e : LogEntry) :
    parseLine (digits ++ e.line) =
      (parseU64 10 (digits ++ toChars e.stepId)).map fun s => { e with stepId := s } := by
  have hfir : ∀ c ∈ digits ++ toChars e.stepId, digitOf c < 10 :=
    forall_mem_append.mpr ⟨hdig, toChars_digits _⟩
  have hone := no_comma hfir (by decide)
  have htwo := no_comma (hex16_digits e.contentHash) le_rfl
  rw [LogEntry.line, ← append_assoc, parseLine]
  rw [takeWhile_append_of_pos hone, dropWhile_append_of_pos hone]
  simp only [takeWhile_cons, dropWhile_cons, ne_eq, not_true_eq_false, decide_false,
    Bool.false_eq_true, if_false, tail_cons, append_nil,
    takeWhile_append_of_pos htwo, dropWhile_append_of_pos htwo]
  simp [parse_hex16, parse_toChars, Option.map_eq_bind]

theorem parseLine_line (e : LogEntry) : parseLine e.line = some e := by
  have h : parseLine ([] ++ e.line) = _ := parseLine_behind (by simp) e
  rwa [nil_append, nil_append, parse_toChars] at h

/-- **A line that is parsed has two commas.** -/
theorem count_comma_of_parseLine {line : List Char} {e : LogEntry} (h : parseLine line = some e) :
    line.count ',' = 2 := by
  have hspl : ∀ l : List Char, l.dropWhile (· ≠ ',') ≠ [] →
      l.count ',' = 1 + (l.dropWhile (· ≠ ',')).tail.count ',' := by
    intro l hne
    have hhead := head_dropWhile_not (· ≠ ',') hne
    obtain ⟨c, rest, hrest⟩ := exists_cons_of_ne_nil hne
    simp only [hrest, head_cons, ne_eq, decide_eq_false_iff_not, not_not] at hhead
    subst hhead
    have hnone : (l.takeWhile (· ≠ ',')).count ',' = 0 :=
      count_eq_zero.mpr fun hmem => by simpa using mem_takeWhile_imp hmem
    have hl := congrArg (count ',') (l.takeWhile_append_dropWhile (p := (· ≠ ',')))
    rw [count_append, hrest, count_cons_self] at hl
    rw [hrest, tail_cons]
    omega
  rw [parseLine] at h
  split at h
  · cases h
  · rename_i hcom
    obtain ⟨hone, htwo⟩ := not_or.mp hcom
    obtain ⟨stepId, -, h⟩ := Option.bind_eq_some_iff.mp h
    obtain ⟨contentHash, -, h⟩ := Option.bind_eq_some_iff.mp h
    obtain ⟨ts, hts, -⟩ := Option.bind_eq_some_iff.mp h
    rw [hspl line hone, hspl _ htwo, count_comma (digits_of_parseU64 hts) (by decide)]

/-! ### Many lines -/

theorem getLines_append {line : List Char} (hline : '\n' ∉ line) (text : List Char) :
    getLines (line ++ '\n' :: text) = line :: getLines text := by
  induction line with
  | nil => simp [getLines]
  | cons c line ih =>
    obtain ⟨hc, hline⟩ := not_or.mp (mem_cons.not.mp hline)
    rw [cons_append, getLines, if_neg (Ne.symm hc), ih hline]
    rfl

theorem newline_not_mem {text : List Char} (h : ∀ c ∈ text, digitOf c < 16) : '\n' ∉ text := by
  intro hmem
  have : digitOf '\n' = 36 := rfl
  have := h _ hmem
  omega

theorem LogEntry.newline_not_mem_line (e : LogEntry) : '\n' ∉ e.line := by
  have hten : ∀ v, '\n' ∉ toChars v := fun v =>
    newline_not_mem fun c hc => lt_trans (toChars_digits v c hc) (by decide)
  simp [LogEntry.line, hten, newline_not_mem (hex16_digits _)]

theorem getLines_records (entries : List LogEntry) (text : List Char) :
    getLines (entries.flatMap LogEntry.record ++ text) =
      entries.map LogEntry.line ++ getLines text := by
  induction entries with
  | nil => rfl
  | cons e entries ih =>
    rw [flatMap_cons, LogEntry.record, append_assoc, append_assoc,
      singleton_append, getLines_append e.newline_not_mem_line, ih]
    rfl

def InStepOrder (log : List LogEntry) : Prop := log.Pairwise fun a b => a.stepId ≤ b.stepId

theorem inStepOrder_snoc {log : List LogEntry} {e : LogEntry} :
    InStepOrder (log ++ [e]) ↔ InStepOrder log ∧ ¬ log.getLast?.any (e.stepId < ·.stepId) := by
  rcases log.eq_nil_or_concat with rfl | ⟨before, last, rfl⟩
  · simp [InStepOrder]
  · have hlast : ¬ (before ++ [last]).getLast?.any (e.stepId < ·.stepId) ↔
        last.stepId ≤ e.stepId := by simp
    rw [concat_eq_append, hlast]
    refine ⟨fun h => ?_, fun h => pairwise_append.mpr ⟨h.1, by simp, ?_⟩⟩
    · obtain ⟨hbef, -, hall⟩ := pairwise_append.mp h
      exact ⟨hbef, hall last (by simp) e (by simp)⟩
    · have hall := (pairwise_append.mp h.1).2.2
      simp only [mem_singleton, forall_eq] at hall ⊢
      exact forall_mem_append.mpr ⟨fun a ha => UInt64.le_trans (hall a ha) h.2,
        forall_mem_singleton.mpr h.2⟩

theorem loadLine_of_parse {log : List LogEntry} {line : List Char} {e : LogEntry}
    (hpar : parseLine line = some e) (hord : InStepOrder (log ++ [e])) :
    loadLine log line = log ++ [e] := by
  rw [loadLine, hpar]
  exact if_neg (inStepOrder_snoc.mp hord).2

theorem loadLog_inStepOrder (text : List Char) : InStepOrder (loadLog text) := by
  refine foldlRecOn _ loadLine List.Pairwise.nil fun log hlog line _ => ?_
  rw [loadLine]
  split
  · exact hlog
  · split
    · exact hlog
    · exact inStepOrder_snoc.mpr ⟨hlog, ‹_›⟩

theorem foldl_loadLine (entries : List LogEntry) {log : List LogEntry}
    (hord : InStepOrder (log ++ entries)) :
    (entries.map LogEntry.line).foldl loadLine log = log ++ entries := by
  induction entries generalizing log with
  | nil => exact (append_nil log).symm
  | cons e entries ih =>
    rw [append_cons] at hord
    rw [map_cons, foldl_cons, loadLine_of_parse (parseLine_line e)
      (hord.sublist (sublist_append_left _ _)), ih hord, ← append_cons]

/-- **What is written is read.** -/
theorem loadLog_records {entries : List LogEntry} (hord : InStepOrder entries) (text : List Char) :
    loadLog (entries.flatMap LogEntry.record ++ text) = (getLines text).foldl loadLine entries := by
  rw [loadLog, getLines_records, foldl_append, foldl_loadLine entries (by exact hord)]
  rfl

end Lines
end Crucible
