import Crucible.Loops
import Crucible.Types
import Mathlib.Data.List.Nodup

/-! # The owner mailbox

The state of the publish stage has one owner at a time.  Callers of
`run_on_publish_stage` hand a job to the stage through one word, the mailbox, or run it
themselves while no stage runs.  Every interleaving of the single atomic accesses to the
word is a run here: a caller and the stage each have a program counter.

Each job of a call that has returned began and ended once, in every run, and no call is ever
stuck.  Two jobs can be in progress at once: `close_owner_mailbox_` gives the word back before it
runs the last job, and a caller then runs its own job beside it.
-/
namespace Crucible
open List Function

/-- The word `owner_mailbox_`: one of the two sentinels, null, or the request of a caller. -/
inductive MailboxWord (C : Type) where
  | closed
  | inlined
  | empty
  | job (c : C)
deriving DecidableEq

/-- The next access of a caller of `run_on_publish_stage`. -/
inductive CallerPc where
  /-- Outside of a call. -/
  | out
  /-- Load the mailbox. -/
  | load
  /-- It was null: exchange it for the request. -/
  | post
  /-- It was closed: exchange it for the inline sentinel. -/
  | claim
  /-- Load `done`. -/
  | wait
  /-- Begin the job inline. -/
  | start
  /-- The job is in progress on the caller. -/
  | run
  /-- Store the closed sentinel. -/
  | release
deriving DecidableEq

/-- The next access of the publish stage. -/
inductive StagePc (C : Type) where
  /-- No publish stage runs. -/
  | out
  /-- `open_owner_mailbox_`. -/
  | opening
  /-- Between two publications: `serve_owner_mailbox_` comes next, or a publication. -/
  | top
  /-- A region callback is in progress. -/
  | callback
  /-- `serve_owner_mailbox_` has loaded a job: begin it, end it, store null, store `done`. -/
  | start (c : C)
  | run (c : C)
  | clear (c : C)
  | notify (c : C)
  /-- `close_owner_mailbox_`. -/
  | closing
  /-- It has found a job: begin it, end it, store `done`. -/
  | lastStart (c : C)
  | lastRun (c : C)
  | lastNotify (c : C)
deriving DecidableEq

structure Mailbox (C : Type) where
  word : MailboxWord C := .closed
  caller : C → CallerPc := fun _ => .out
  done : C → Bool := fun _ => false
  stage : StagePc C := .out
  calls : C → Nat := fun _ => 0
  began : List (C × Nat) := []
  ended : List (C × Nat) := []

/-- A step of a caller or of the stage.  An exchange of a `weak` step fails spuriously. -/
inductive MailboxAction (C : Type) where
  /-- A caller enters `run_on_publish_stage`. -/
  | call (c : C)
  /-- The next access of a caller. -/
  | caller (c : C) (weak : Bool)
  /-- A publish stage begins. -/
  | enter
  /-- The next access of the stage. -/
  | stage (weak : Bool)
  /-- The stage publishes a region. -/
  | publish
  /-- The scope of the stage ends. -/
  | leave
deriving DecidableEq

namespace Mailbox
variable {C : Type} [DecidableEq C] (m : Mailbox C)

def goto (c : C) (pc : CallerPc) : Mailbox C := { m with caller := update m.caller c pc }

def beginJob (c : C) : Mailbox C := { m with began := m.began ++ [(c, m.calls c)] }
def endJob (c : C) : Mailbox C := { m with ended := m.ended ++ [(c, m.calls c)] }

def enterCall (c : C) : Mailbox C :=
  if m.caller c = .out then
    { m with
      caller := update m.caller c .load
      done := update m.done c false
      calls := update m.calls c (m.calls c + 1) }
  else m

/-- The next access of `run_on_publish_stage`. -/
def stepCaller (c : C) (weak : Bool) : Mailbox C :=
  match m.caller c with
  | .out => m
  | .load =>
    match m.word with
    | .empty => m.goto c .post
    | .closed => m.goto c .claim
    | .inlined | .job _ => m
  | .post =>
    if m.word = .empty ∧ weak = false then { m.goto c .wait with word := .job c }
    else m.goto c .load
  | .claim =>
    if m.word = .closed ∧ weak = false then { m.goto c .start with word := .inlined }
    else m.goto c .load
  | .wait => if m.done c then m.goto c .out else m
  | .start => (m.goto c .run).beginJob c
  | .run => (m.goto c .release).endJob c
  | .release => { m.goto c .out with word := .closed }

/-- The next access of the stage, with the checks of `serve_owner_mailbox_` and
`open_owner_mailbox_`. -/
def stepStage (weak : Bool) : Except Fault (Mailbox C) :=
  match m.stage with
  | .out => .ok m
  | .opening =>
    if m.word = .closed ∧ weak = false then .ok { m with word := .empty, stage := .top }
    else if m.word = .inlined ∨ m.word = .closed then .ok m
    else .error .contract
  | .top =>
    match m.word with
    | .empty => .ok m
    | .job c => .ok { m with stage := .start c }
    | .closed | .inlined => .error .contract
  | .callback => .ok { m with stage := .top }
  | .start c => .ok { m.beginJob c with stage := .run c }
  | .run c => .ok { m.endJob c with stage := .clear c }
  | .clear c => .ok { m with word := .empty, stage := .notify c }
  | .notify c => .ok { m with done := update m.done c true, stage := .top }
  | .closing =>
    match m.word with
    | .empty => .ok { m with word := .closed, stage := .out }
    | .job c => .ok { m with word := .closed, stage := .lastStart c }
    -- a sentinel has no function to call
    | .closed | .inlined => .error .contract
  | .lastStart c => .ok { m.beginJob c with stage := .lastRun c }
  | .lastRun c => .ok { m.endJob c with stage := .lastNotify c }
  | .lastNotify c => .ok { m with done := update m.done c true, stage := .out }

def step : MailboxAction C → Except Fault (Mailbox C)
  | .call c => .ok (m.enterCall c)
  | .caller c weak => .ok (m.stepCaller c weak)
  | .enter => .ok (if m.stage = .out then { m with stage := .opening } else m)
  | .stage weak => m.stepStage weak
  | .publish => .ok (if m.stage = .top then { m with stage := .callback } else m)
  | .leave => .ok (if m.stage = .top then { m with stage := .closing } else m)

end Mailbox

def runMailbox {C : Type} [DecidableEq C] (m : Mailbox C) (actions : List (MailboxAction C)) :
    Except Fault (Mailbox C) := actions.foldlM Mailbox.step m

namespace Mailbox
variable {C : Type} [DecidableEq C] {m m' : Mailbox C}

/-! ### The properties -/

variable (m : Mailbox C)

/-- Who has a job or a region callback in progress: the stage, or a caller. -/
def Executing : Option C → Prop
  | none => m.stage = .callback ∨ ∃ c, m.stage = .run c ∨ m.stage = .lastRun c
  | some c => m.caller c = .run

/-- At most one job or region callback is in progress. -/
def Exclusive : Prop := ∀ w w', m.Executing w → m.Executing w' → w = w'

def Returned (c : C) (k : Nat) : Prop :=
  1 ≤ k ∧ (k < m.calls c ∨ (k = m.calls c ∧ m.caller c = .out))

/-- No job begins or ends twice, and each job of a call that has returned has begun and has
ended. -/
structure OnceEach : Prop where
  began_nodup : m.began.Nodup
  ended_nodup : m.ended.Nodup
  ran : ∀ c k, m.Returned c k → (c, k) ∈ m.began ∧ (c, k) ∈ m.ended

def ClosesEmpty : MailboxAction C → Prop
  | .stage _ => m.stage = .closing → m.word = .empty
  | _ => True

instance (m : Mailbox C) : ∀ a, Decidable (m.ClosesEmpty a)
  | .stage _ => inferInstanceAs (Decidable (m.stage = .closing → m.word = .empty))
  | .call _ | .caller _ _ | .enter | .publish | .leave => inferInstanceAs (Decidable True)

end Mailbox

/-! ### What a step can do -/

/-- A caller between its entry and its exchange. -/
@[grind]
def CallerPc.Looks (pc : CallerPc) : Prop := pc = .load ∨ pc = .post ∨ pc = .claim

@[grind]
def CallerPc.Inlined (pc : CallerPc) : Prop := pc = .start ∨ pc = .run ∨ pc = .release

@[grind]
def StagePc.Opened {C : Type} : StagePc C → Prop
  | .top | .callback | .start _ | .run _ | .clear _ | .notify _ | .closing => True
  | .out | .opening | .lastStart _ | .lastRun _ | .lastNotify _ => False

/-- The caller whose job the stage has in hand. -/
@[grind]
def StagePc.inHand {C : Type} : StagePc C → Option C
  | .start c | .run c | .clear c | .notify c | .lastStart c | .lastRun c | .lastNotify c => some c
  | .out | .opening | .top | .callback | .closing => none

/-- A stage between two jobs, before and after a step that touches nothing else. -/
inductive StagePc.Turns {C : Type} : StagePc C → StagePc C → Prop
  | enter : Turns .out .opening
  | publish : Turns .top .callback
  | published : Turns .callback .top
  | leave : Turns .top .closing

/-- How far the stage is with the job of a caller: not begun, begun, ended. -/
@[grind]
def StagePc.progress {C : Type} [DecidableEq C] (s : StagePc C) (c : C) : Nat :=
  match s with
  | .run c' | .lastRun c' => if c' = c then 1 else 0
  | .clear c' | .notify c' | .lastNotify c' => if c' = c then 2 else 0
  | .out | .opening | .top | .callback | .closing | .start _ | .lastStart _ => 0

theorem StagePc.progress_eq_zero {C : Type} [DecidableEq C] {s : StagePc C} {c : C}
    (h : s.inHand ≠ some c) : s.progress c = 0 := by
  cases s with
  | run _ | lastRun _ | clear _ | notify _ | lastNotify _ =>
    exact if_neg fun heq => h (congrArg some heq)
  | _ => rfl

theorem StagePc.Turns.keeps {C : Type} {s s' : StagePc C} (h : s.Turns s') :
    (s.Opened ↔ s'.Opened) ∧ s.inHand = none ∧ s'.inHand = none := by
  cases h <;> exact ⟨Iff.rfl, rfl, rfl⟩

namespace Mailbox
variable {C : Type} [DecidableEq C] {m m' : Mailbox C}

/-- The steps that change something. -/
inductive Moves (m : Mailbox C) : Mailbox C → Prop
  | call {c : C} (hc : m.caller c = .out) : Moves m
      { m with
        caller := update m.caller c .load
        done := update m.done c false
        calls := update m.calls c (m.calls c + 1) }
  | look {c : C} {pc : CallerPc} (hc : (m.caller c).Looks) (hpc : pc.Looks) :
    Moves m { m with caller := update m.caller c pc }
  | post {c : C} (hc : m.caller c = .post) (hword : m.word = .empty) :
    Moves m { m with word := .job c, caller := update m.caller c .wait }
  | claim {c : C} (hc : m.caller c = .claim) (hword : m.word = .closed) :
    Moves m { m with word := .inlined, caller := update m.caller c .start }
  | ret {c : C} (hc : m.caller c = .wait) (hdone : m.done c = true) :
    Moves m { m with caller := update m.caller c .out }
  | begins {c : C} (hc : m.caller c = .start) : Moves m
      { m with
        caller := update m.caller c .run
        began := m.began ++ [(c, m.calls c)] }
  | ends {c : C} (hc : m.caller c = .run) : Moves m
      { m with
        caller := update m.caller c .release
        ended := m.ended ++ [(c, m.calls c)] }
  | release {c : C} (hc : m.caller c = .release) :
    Moves m { m with word := .closed, caller := update m.caller c .out }
  | turn {s : StagePc C} (hs : m.stage.Turns s) : Moves m { m with stage := s }
  | opens (hs : m.stage = .opening) (hword : m.word = .closed) :
    Moves m { m with word := .empty, stage := .top }
  | takes {c : C} (hs : m.stage = .top) (hword : m.word = .job c) :
      Moves m { m with stage := .start c }
  | stageBegins {c : C} (hs : m.stage = .start c) :
    Moves m { m with stage := .run c, began := m.began ++ [(c, m.calls c)] }
  | stageEnds {c : C} (hs : m.stage = .run c) :
    Moves m { m with stage := .clear c, ended := m.ended ++ [(c, m.calls c)] }
  | clears {c : C} (hs : m.stage = .clear c) : Moves m { m with word := .empty, stage := .notify c }
  | notifies {c : C} (hs : m.stage = .notify c) :
    Moves m { m with done := update m.done c true, stage := .top }
  | closes (hs : m.stage = .closing) (hword : m.word = .empty) :
    Moves m { m with word := .closed, stage := .out }
  | closesLast {c : C} (hs : m.stage = .closing) (hword : m.word = .job c) :
    Moves m { m with word := .closed, stage := .lastStart c }
  | lastBegins {c : C} (hs : m.stage = .lastStart c) :
    Moves m { m with stage := .lastRun c, began := m.began ++ [(c, m.calls c)] }
  | lastEnds {c : C} (hs : m.stage = .lastRun c) :
    Moves m { m with stage := .lastNotify c, ended := m.ended ++ [(c, m.calls c)] }
  | lastNotifies {c : C} (hs : m.stage = .lastNotify c) :
    Moves m { m with done := update m.done c true, stage := .out }

theorem stepCaller_moves (m : Mailbox C) (c : C) (weak : Bool) :
    m.stepCaller c weak = m ∨ Moves m (m.stepCaller c weak) := by
  unfold stepCaller
  cases hc : m.caller c with
  | out => exact .inl rfl
  | load =>
    cases hword : m.word with
    | empty => exact .inr (.look (.inl hc) (.inr (.inl rfl)))
    | closed => exact .inr (.look (.inl hc) (.inr (.inr rfl)))
    | inlined => exact .inl rfl
    | job => exact .inl rfl
  | post =>
    dsimp only
    split_ifs with hswap
    · exact .inr (.post hc hswap.1)
    · exact .inr (.look (.inr (.inl hc)) (.inl rfl))
  | claim =>
    dsimp only
    split_ifs with hswap
    · exact .inr (.claim hc hswap.1)
    · exact .inr (.look (.inr (.inr hc)) (.inl rfl))
  | wait =>
    dsimp only
    split_ifs with hdone
    · exact .inr (.ret hc hdone)
    · exact .inl rfl
  | start => exact .inr (.begins hc)
  | run => exact .inr (.ends hc)
  | release => exact .inr (.release hc)

theorem stepStage_moves {weak : Bool} (h : m.stepStage weak = .ok m') : m' = m ∨ Moves m m' := by
  revert h
  unfold stepStage
  cases hs : m.stage with
  | out =>
    rintro ⟨⟩
    exact .inl rfl
  | opening =>
    dsimp only
    split
    · rename_i hswap
      rintro ⟨⟩
      exact .inr (.opens hs hswap.1)
    · split
      · rintro ⟨⟩
        exact .inl rfl
      · rintro ⟨⟩
  | top =>
    dsimp only
    split
    · rintro ⟨⟩
      exact .inl rfl
    · rename_i c hword
      rintro ⟨⟩
      exact .inr (.takes hs hword)
    · rintro ⟨⟩
    · rintro ⟨⟩
  | closing =>
    cases hword : m.word with
    | empty =>
      rintro ⟨⟩
      exact .inr (.closes hs hword)
    | job c =>
      rintro ⟨⟩
      exact .inr (.closesLast hs hword)
    | closed | inlined => rintro ⟨⟩
  | callback =>
    rintro ⟨⟩
    exact .inr (.turn (hs ▸ .published))
  | start c =>
    rintro ⟨⟩
    exact .inr (.stageBegins hs)
  | run c =>
    rintro ⟨⟩
    exact .inr (.stageEnds hs)
  | clear c =>
    rintro ⟨⟩
    exact .inr (.clears hs)
  | notify c =>
    rintro ⟨⟩
    exact .inr (.notifies hs)
  | lastStart c =>
    rintro ⟨⟩
    exact .inr (.lastBegins hs)
  | lastRun c =>
    rintro ⟨⟩
    exact .inr (.lastEnds hs)
  | lastNotify c =>
    rintro ⟨⟩
    exact .inr (.lastNotifies hs)

variable {a : MailboxAction C}

/-- **What a step can do.** -/
theorem step_moves (h : m.step a = .ok m') : m' = m ∨ Moves m m' := by
  cases a with
  | call c =>
    cases h
    by_cases hc : m.caller c = .out
    · rw [enterCall, if_pos hc]
      exact .inr (.call hc)
    · rw [enterCall, if_neg hc]
      exact .inl rfl
  | caller c weak =>
    cases h
    exact stepCaller_moves m c weak
  | enter =>
    cases h
    split_ifs with hs
    · exact .inr (.turn (hs ▸ .enter))
    · exact .inl rfl
  | stage weak => exact stepStage_moves h
  | publish =>
    cases h
    split_ifs with hs
    · exact .inr (.turn (hs ▸ .publish))
    · exact .inl rfl
  | leave =>
    cases h
    split_ifs with hs
    · exact .inr (.turn (hs ▸ .leave))
    · exact .inl rfl

/-! ### Ownership -/

/-- Who owns the word, and which callers wait for whom. -/
structure Sound (m : Mailbox C) : Prop where
  open_word : m.stage.Opened → m.word = .empty ∨ ∃ c, m.word = .job c
  shut_word : ¬ m.stage.Opened → m.word = .closed ∨ m.word = .inlined
  looking : ∀ c, (m.caller c).Looks → m.done c = false
  job_waits : ∀ c, m.word = .job c → m.caller c = .wait ∧ m.done c = false
  hand_waits : ∀ c, m.stage.inHand = some c → m.caller c = .wait ∧ m.done c = false
  serves : ∀ c, m.stage = .start c ∨ m.stage = .run c ∨ m.stage = .clear c → m.word = .job c
  cleared : ∀ c, m.stage = .notify c → m.word ≠ .job c
  waits : ∀ c, m.caller c = .wait → m.done c = false → m.word = .job c ∨ m.stage.inHand = some c
  inlined_word : ∀ c, (m.caller c).Inlined → m.word = .inlined
  inlined_unique : ∀ c c', (m.caller c).Inlined → (m.caller c').Inlined → c = c'

/-! Each clause is kept by every step, and each lemma below names the other clauses it
rests on. -/

section
variable (hm : Moves m m')
include hm

variable (h : m.Sound)
include h

theorem Moves.open_word : m'.stage.Opened → m'.word = .empty ∨ ∃ c, m'.word = .job c := by
  -- an open word is never taken inline: `claim` needs it closed, `release` had it inline
  have hopen := h.open_word
  have hinl := h.inlined_word
  cases hm <;> grind [→ StagePc.Turns.keeps]

theorem Moves.shut_word : ¬ m'.stage.Opened → m'.word = .closed ∨ m'.word = .inlined := by
  have hshut := h.shut_word
  cases hm <;> grind [→ StagePc.Turns.keeps]

theorem Moves.looking (c : C) (hc : (m'.caller c).Looks) : m'.done c = false := by
  -- only a caller that waits is told that its request is done
  have hlooks := h.looking
  have hhand := h.hand_waits
  cases hm <;> grind

theorem Moves.job_waits (c : C) (hc : m'.word = .job c) :
    m'.caller c = .wait ∧ m'.done c = false := by
  have hlooks := h.looking
  have hjob := h.job_waits
  have hclear := h.cleared
  have hshut := h.shut_word
  cases hm <;> grind

theorem Moves.hand_waits (c : C) (hc : m'.stage.inHand = some c) :
    m'.caller c = .wait ∧ m'.done c = false := by
  have hjob := h.job_waits
  have hhand := h.hand_waits
  cases hm <;> grind [→ StagePc.Turns.keeps]

theorem Moves.serves (c : C)
    (hc : m'.stage = .start c ∨ m'.stage = .run c ∨ m'.stage = .clear c) : m'.word = .job c := by
  -- the word cannot leave the hand of an open stage
  have hinl := h.inlined_word
  have hser := h.serves
  cases hm <;> grind [→ StagePc.Turns.keeps]

theorem Moves.cleared (c : C) (hc : m'.stage = .notify c) : m'.word ≠ .job c := by
  have hhand := h.hand_waits
  have hclear := h.cleared
  cases hm <;> grind [→ StagePc.Turns.keeps]

theorem Moves.waits (c : C) (hc : m'.caller c = .wait)
    (hdone : m'.done c = false) : m'.word = .job c ∨ m'.stage.inHand = some c := by
  have hwaits := h.waits
  have hser := h.serves
  have hinl := h.inlined_word
  cases hm <;> grind [→ StagePc.Turns.keeps]

theorem Moves.inlined_word (c : C) (hc : (m'.caller c).Inlined) : m'.word = .inlined := by
  have hinl := h.inlined_word
  have hopen := h.open_word
  have huniq := h.inlined_unique
  cases hm <;> grind

theorem Moves.inlined_unique (c c' : C)
    (hc : (m'.caller c).Inlined) (hc' : (m'.caller c').Inlined) : c = c' := by
  have hinl := h.inlined_word
  have huniq := h.inlined_unique
  cases hm <;> grind

end

/-- **Every step keeps the ownership.** -/
theorem Sound.move (h : m.Sound) (hm : Moves m m') : m'.Sound where
  open_word := hm.open_word h
  shut_word := hm.shut_word h
  looking := hm.looking h
  job_waits := hm.job_waits h
  hand_waits := hm.hand_waits h
  serves := hm.serves h
  cleared := hm.cleared h
  waits := hm.waits h
  inlined_word := hm.inlined_word h
  inlined_unique := hm.inlined_unique h

omit [DecidableEq C] in
theorem start_sound : ({} : Mailbox C).Sound := by
  constructor <;> grind

theorem Sound.step_ok (h : m.Sound) (a : MailboxAction C) : m.step a ≠ .error .contract := by
  have hopen := h.open_word
  have hshut := h.shut_word
  cases a with
  | stage weak =>
    show m.stepStage weak ≠ .error .contract
    unfold stepStage
    grind
  | call c => exact nofun
  | caller c weak => exact nofun
  | enter => exact nofun
  | publish => exact nofun
  | leave => exact nofun

/-! ### Every job once -/

/-- How far the job of the current call of a caller is: not begun, begun, ended. -/
def progress (m : Mailbox C) (c : C) : Nat :=
  match m.caller c with
  | .load | .post | .claim | .start => 0
  | .run => 1
  | .release | .out => 2
  | .wait => if m.done c then 2 else m.stage.progress c

/-- A list of jobs without repetition: those of all calls before the current ones, and those
of the current calls that have come as far as `level`. -/
structure Lists (log : List (C × Nat)) (calls progress : C → Nat) (level : Nat) : Prop where
  nodup : log.Nodup
  mem_iff : ∀ c k, (c, k) ∈ log ↔ 1 ≤ k ∧ (k < calls c ∨ (k = calls c ∧ level ≤ progress c))

section Lists
variable {log : List (C × Nat)} {calls p p' : C → Nat} {level : Nat}

theorem Lists.pass {log' : List (C × Nat)} (h : Lists log calls p level) {c : C}
    (hpos : 1 ≤ calls c) (hnext : p' c = p c + 1) (hsame : ∀ c', c' ≠ c → p' c' = p c')
    (hlog : log' = if p' c = level then log ++ [(c, calls c)] else log) :
    Lists log' calls p' level := by
  have hmem : ∀ c' k, (c', k) ∈ log' ↔
      1 ≤ k ∧ (k < calls c' ∨ (k = calls c' ∧ level ≤ p' c')) := by
    intro c' k
    have hold := h.mem_iff c' k
    by_cases hc : c' = c
    · subst hc
      split at hlog
      · simp only [hlog, mem_append, hold, mem_singleton, Prod.mk.injEq, true_and]
        omega
      · rw [hlog, hold]
        omega
    · rw [hsame c' hc, ← hold, hlog]
      split <;> simp [hc]
  refine ⟨?_, hmem⟩
  rw [hlog]
  split
  · refine h.nodup.append (nodup_singleton _) (disjoint_singleton.mpr fun hin => ?_)
    have := (h.mem_iff c (calls c)).mp hin
    omega
  · exact h.nodup

theorem Lists.call (h : Lists log calls p level) {c : C} (hle : level ≤ p c) (hlt : p' c < level)
    (hsame : ∀ c', c' ≠ c → (level ≤ p' c' ↔ level ≤ p c')) :
    Lists log (update calls c (calls c + 1)) p' level := by
  refine ⟨h.nodup, fun c' k => ?_⟩
  rw [h.mem_iff]
  by_cases hc : c' = c
  · subst hc
    rw [update_self]
    omega
  · rw [update_of_ne hc, hsame c' hc]

end Lists

/-- The two lists hold the jobs that have begun, and those that have ended. -/
structure Logged (m : Mailbox C) : Prop where
  called : ∀ c, m.caller c ≠ .out → 1 ≤ m.calls c
  began : Lists m.began m.calls m.progress 1
  ended : Lists m.ended m.calls m.progress 2

theorem Logged.keep (h : m.Logged) (hout : ∀ c, m.caller c = .out → m'.caller c = .out)
    (hcal : m'.calls = m.calls) (hbeg : m'.began = m.began) (hend : m'.ended = m.ended)
    (hprog : ∀ c, m'.progress c = m.progress c) : m'.Logged := by
  have hsame : m'.progress = m.progress := funext hprog
  constructor
  · intro c hc
    rw [hcal]
    exact h.called c (mt (hout c) hc)
  · rw [hbeg, hcal, hsame]
    exact h.began
  · rw [hend, hcal, hsame]
    exact h.ended

theorem Logged.pass {c : C} (h : m.Logged) (hc : m.caller c ≠ .out)
    (hout : ∀ c, m.caller c = .out → m'.caller c = .out) (hcal : m'.calls = m.calls)
    (hnext : m'.progress c = m.progress c + 1)
    (hoth : ∀ c', c' ≠ c → m'.progress c' = m.progress c')
    (hbeg : m'.began = if m'.progress c = 1 then m.began ++ [(c, m.calls c)] else m.began)
    (hend : m'.ended = if m'.progress c = 2 then m.ended ++ [(c, m.calls c)] else m.ended) :
    m'.Logged := by
  constructor
  · intro c' hc'
    rw [hcal]
    exact h.called c' (mt (hout c') hc')
  · rw [hcal]
    exact h.began.pass (h.called c hc) hnext hoth hbeg
  · rw [hcal]
    exact h.ended.pass (h.called c hc) hnext hoth hend

theorem Logged.call {c : C} (h : m.Logged) (hc : m.caller c = .out) (hc' : m'.caller c = .load)
    (hoth : ∀ c', c' ≠ c → m'.caller c' = m.caller c' ∧ m'.progress c' = m.progress c')
    (hcal : m'.calls = update m.calls c (m.calls c + 1))
    (hbeg : m'.began = m.began) (hend : m'.ended = m.ended) : m'.Logged := by
  have htwo : m.progress c = 2 := by
    rw [progress, hc]
  have hzero : m'.progress c = 0 := by
    rw [progress, hc']
  constructor
  · intro c' hin
    rw [hcal]
    by_cases hsame : c' = c
    · rw [hsame, update_self]
      exact le_add_self
    · rw [update_of_ne hsame]
      exact h.called c' ((hoth c' hsame).1 ▸ hin)
  · rw [hbeg, hcal]
    exact h.began.call (by omega) (by omega) fun c' hne => by rw [(hoth c' hne).2]
  · rw [hend, hcal]
    exact h.ended.call (by omega) (by omega) fun c' hne => by rw [(hoth c' hne).2]

theorem Logged.stage (h : m.Logged) (hcal : m'.caller = m.caller) (hdone : m'.done = m.done)
    (hcalls : m'.calls = m.calls) (hbeg : m'.began = m.began) (hend : m'.ended = m.ended)
    (hstage : ∀ c, m'.stage.progress c = m.stage.progress c) : m'.Logged := by
  apply h.keep _ hcalls hbeg hend
  · intro c
    rw [progress, progress, hcal, hdone, hstage]
  · intro c hc
    rw [hcal, hc]

/-- **Every step keeps the lists.** -/
theorem Logged.move (h : m.Logged) (hs : m.Sound) (hm : Moves m m') : m'.Logged := by
  -- a caller that posts has not been answered, and one whose job is in hand waits
  have hlooks := hs.looking
  have hhand := hs.hand_waits
  cases hm with
  | @call c hc => apply h.call hc <;> grind [progress]
  | look | claim | ret | release | notifies | lastNotifies =>
    apply h.keep <;> grind [progress]
  | @post c hc hword =>
    have hnone : m.stage.progress c = 0 := StagePc.progress_eq_zero (by grind)
    apply h.keep <;> grind [progress]
  | @begins c | @stageBegins c | @lastBegins c | @ends c | @stageEnds c | @lastEnds c =>
    apply h.pass (c := c) <;> grind [progress]
  | turn hs =>
    obtain ⟨-, hbef, haft⟩ := hs.keeps
    have hnone : ∀ c, m.stage.progress c = 0 := fun c =>
      StagePc.progress_eq_zero (by rw [hbef]; exact nofun)
    have hnone' := fun c => StagePc.progress_eq_zero (show _ ≠ some c by rw [haft]; exact nofun)
    exact h.stage rfl rfl rfl rfl rfl fun c => (hnone' c).trans (hnone c).symm
  | opens hs | takes hs | clears hs | closes hs | closesLast hs =>
    exact h.stage rfl rfl rfl rfl rfl fun c => by rw [hs]; rfl

theorem start_logged : ({} : Mailbox C).Logged := by
  refine ⟨fun c hc => absurd rfl hc, ⟨nodup_nil, fun c k => ?_⟩, ⟨nodup_nil, fun c k => ?_⟩⟩
  · simp only [not_mem_nil, false_iff]
    omega
  · simp only [not_mem_nil, false_iff]
    omega

theorem Logged.onceEach (h : m.Logged) : m.OnceEach := by
  refine ⟨h.began.nodup, h.ended.nodup, ?_⟩
  rintro c k ⟨hpos, hbef⟩
  have htwo : k < m.calls c ∨ (k = m.calls c ∧ 2 ≤ m.progress c) := by
    rcases hbef with hlt | ⟨heq, hout⟩
    · exact .inl hlt
    · refine .inr ⟨heq, ?_⟩
      rw [progress, hout]
  rw [h.began.mem_iff, h.ended.mem_iff]
  omega

/-! ### One job at a time -/

/-- The stage is not with a job that it found when it closed the mailbox. -/
def NoLastJob (m : Mailbox C) : Prop :=
  ∀ c, m.stage ≠ .lastStart c ∧ m.stage ≠ .lastRun c ∧ m.stage ≠ .lastNotify c

theorem NoLastJob.step (h : m.NoLastJob) (hclos : m.ClosesEmpty a)
    (hstep : m.step a = .ok m') : m'.NoLastJob := by
  unfold NoLastJob at h ⊢
  cases a with
  | call c =>
    cases hstep
    grind [enterCall]
  | caller c weak =>
    cases hstep
    grind [stepCaller, goto, beginJob, endJob]
  | stage weak =>
    have hstep : m.stepStage weak = .ok m' := hstep
    unfold stepStage at hstep
    grind [ClosesEmpty, beginJob, endJob]
  | enter | publish | leave =>
    cases hstep
    grind

omit [DecidableEq C] in
theorem Sound.exclusive (h : m.Sound) (hlast : m.NoLastJob) : m.Exclusive := by
  have hstage : m.Executing none → m.word ≠ .inlined := by
    rintro hexec hword
    have hopen : m.stage.Opened := by
      rcases hexec with hs | ⟨c, hs | hs⟩
      · rw [hs]
        trivial
      · rw [hs]
        trivial
      · exact absurd hs (hlast c).2.1
    rcases h.open_word hopen with hemp | ⟨c, hjob⟩
    · rw [hword] at hemp
      cases hemp
    · rw [hword] at hjob
      cases hjob
  have hcal : ∀ c, m.Executing (some c) → m.word = .inlined := fun c hc =>
    h.inlined_word c (.inr (.inl hc))
  intro w w' hw hw'
  cases w with
  | none =>
    cases w' with
    | none => rfl
    | some c => exact absurd (hcal c hw') (hstage hw)
  | some c =>
    cases w' with
    | none => exact absurd (hcal c hw) (hstage hw')
    | some c' => rw [h.inlined_unique c c' (.inr (.inl hw)) (.inr (.inl hw'))]

/-- What a run keeps whose stage always closes an empty mailbox. -/
structure Orderly (m : Mailbox C) : Prop where
  sound : m.Sound
  logged : m.Logged
  noLastJob : m.NoLastJob

theorem Orderly.step (h : m.Orderly) (hclos : m.ClosesEmpty a)
    (hstep : m.step a = .ok m') : m'.Orderly := by
  have hlast := h.noLastJob.step hclos hstep
  rcases step_moves hstep with rfl | hm
  · exact h
  · exact ⟨h.sound.move hm, h.logged.move h.sound hm, hlast⟩

theorem start_orderly : ({} : Mailbox C).Orderly :=
  ⟨start_sound, start_logged, fun _ => ⟨nofun, nofun, nofun⟩⟩

/-- **Every job runs once and alone.**  In every interleaving of any callers with a publish
stage that always closes an empty mailbox, no check of the stage fails, at most one job or
region callback is in progress, and each job of a call that has returned has run once. -/
theorem jobs_exclusive_once {actions : List (MailboxAction C)}
    (hcloses : AllSteps Mailbox.step ClosesEmpty {} actions) :
    runMailbox {} actions ≠ .error .contract ∧
      ∀ m : Mailbox C, runMailbox {} actions = .ok m → m.Exclusive ∧ m.OnceEach := by
  constructor
  · exact foldlM_ne_error Orderly start_orderly (fun _ _ _ hc h hstep => h.step hc hstep)
      (fun _ a _ h => h.sound.step_ok a) hcloses
  · intro m hrun
    have horderly := foldlM_allSteps Orderly start_orderly
      (fun _ _ _ hc h hstep => h.step hc hstep) hcloses hrun
    exact ⟨horderly.sound.exclusive horderly.noLastJob, horderly.logged.onceEach⟩

/-- A stage opens the mailbox, a caller posts its job, the stage runs it and closes, and
another caller runs its job inline. -/
def servedThenInline : List (MailboxAction Bool) :=
  [.enter, .stage false, .call true, .caller true false, .caller true false,
    .stage false, .stage false, .stage false, .stage false, .stage false, .caller true false,
    .leave, .stage false, .call false, .caller false false, .caller false false,
    .caller false false, .caller false false, .caller false false]

theorem jobs_exclusive_once_served : AllSteps Mailbox.step ClosesEmpty {} servedThenInline ∧
      runMailbox {} servedThenInline ≠ .error .contract ∧
      ∀ m, runMailbox {} servedThenInline = .ok m → m.Exclusive ∧ m.OnceEach := by
  have hcloses : AllSteps Mailbox.step ClosesEmpty {} servedThenInline := by decide +kernel
  exact ⟨hcloses, jobs_exclusive_once hcloses⟩

/-- A caller posts its job while the stage closes the mailbox, and another caller finds it
closed while the stage runs that job. -/
def postedAtClose : List (MailboxAction Bool) :=
  [.enter, .stage false, .call true, .caller true false, .leave, .caller true false,
    .stage false, .stage false, .call false, .caller false false, .caller false false,
    .caller false false]

/-- **The last job of a stage can overlap with a job that runs inline.** -/
theorem last_job_overlaps :
    ∃ m, runMailbox {} postedAtClose = .ok m ∧ m.stage = .lastRun true ∧ m.caller false = .run ∧
      ¬ m.Exclusive := by
  obtain ⟨m, hrun, hstate⟩ :=
    ok_of_eval (show (runMailbox {} postedAtClose).toOption.map
      (fun m => (m.stage, m.caller false)) = some (.lastRun true, .run) by decide +kernel)
  obtain ⟨hstage, hcaller⟩ := Prod.mk.inj hstate
  refine ⟨m, hrun, hstage, hcaller, fun hexclusive => ?_⟩
  have hsame := hexclusive none (some false) (.inr ⟨true, .inr hstage⟩) hcaller
  cases hsame

/-! ### No call is stuck -/

/-- A word taken inline has a caller that gives it back. -/
structure Live (m : Mailbox C) : Prop extends m.Sound where
  inliner : m.word = .inlined → ∃ c, (m.caller c).Inlined

theorem Live.move (h : m.Live) (hm : Moves m m') : m'.Live := by
  refine ⟨h.toSound.move hm, ?_⟩
  have hinl := h.inlined_unique
  cases hm with
  | @claim c | @begins c | @ends c => exact fun _ => ⟨c, by simp [CallerPc.Inlined]⟩
  | @call c | @look c | @post c | @ret c =>
    intro hword
    obtain ⟨w, hw⟩ := h.inliner (by grind)
    exact ⟨w, by grind⟩
  | release | opens | clears | closes | closesLast => rintro ⟨⟩
  | _ => exact h.inliner

theorem Live.step (h : m.Live) (hstep : m.step a = .ok m') : m'.Live := by
  rcases step_moves hstep with rfl | hm
  · exact h
  · exact h.move hm

/-- The call of a caller can return, by accesses of the stage and of calls that are under way
alone, in which no exchange fails spuriously. -/
def CanReturn (m : Mailbox C) (c : C) : Prop :=
  ∃ actions, (∀ a ∈ actions, a = .stage false ∨ ∃ w, a = .caller w false) ∧
    ∃ m', runMailbox m actions = .ok m' ∧ m'.caller c = .out

variable {c : C}

theorem canReturn_out (hc : m.caller c = .out) : m.CanReturn c :=
  ⟨[], forall_mem_nil _, m, rfl, hc⟩

theorem canReturn_step (hstep : m.step a = .ok m')
    (ha : a = .stage false ∨ ∃ w, a = .caller w false) (h : m'.CanReturn c) : m.CanReturn c := by
  obtain ⟨actions, hall, last, hrun, hout⟩ := h
  refine ⟨a :: actions, forall_mem_cons.mpr ⟨ha, hall⟩, last, ?_, hout⟩
  rw [runMailbox, foldlM_cons, hstep]
  exact hrun

theorem Live.caller (h : m.Live) (w : C)
    (hnext : (m.stepCaller w false).Live → (m.stepCaller w false).CanReturn c) : m.CanReturn c :=
  have hstep : m.step (.caller w false) = .ok (m.stepCaller w false) := rfl
  canReturn_step hstep (.inr ⟨w, rfl⟩) (hnext (h.step hstep))

/-- A caller that has the word inline gives it back. -/
theorem Live.release {w : C} (h : m.Live) (hw : (m.caller w).Inlined)
    (hnext : ∀ m' : Mailbox C, m'.Live → m'.caller = update m.caller w .out → m'.word = .closed →
      m'.CanReturn c) : m.CanReturn c := by
  rcases hw with hw | hw | hw
  · refine h.caller w fun h => h.caller w fun h => h.caller w fun h => hnext _ h ?_ ?_ <;>
      simp [stepCaller, goto, beginJob, endJob, hw]
  · refine h.caller w fun h => h.caller w fun h => hnext _ h ?_ ?_ <;>
      simp [stepCaller, goto, endJob, hw]
  · refine h.caller w fun h => hnext _ h ?_ ?_ <;> simp [stepCaller, goto, hw]

/-- A call waits for the stage. -/
@[grind]
def Busy (m : Mailbox C) : Prop := ∃ c, m.word = .job c ∨ m.stage.inHand = some c

/-- The steps of the stage until no call waits for it. -/
@[grind]
def stageRest (m : Mailbox C) : Nat :=
  (match m.word with
    | .job c => if m.stage.inHand = some c then 0 else 5
    | _ => 0) +
  match m.stage with
    | .start _ => 4
    | .run _ | .lastStart _ => 3
    | .clear _ | .lastRun _ => 2
    | .notify _ | .lastNotify _ | .callback => 1
    | .out | .opening | .top | .closing => 0

theorem Sound.stage_closer (h : m.Sound) (hbusy : m.Busy) :
    ∃ m', m.stepStage false = .ok m' ∧ m'.caller = m.caller ∧ m'.stageRest < m.stageRest := by
  have hser := h.serves
  have hopen := h.open_word
  have hshut := h.shut_word
  have hclear := h.cleared
  unfold stepStage
  cases hs : m.stage <;> cases hw : m.word <;> grind [beginJob, endJob]

/-- The stage answers every call that waits for it. -/
theorem Live.canReturn_of_idle (h : m.Live)
    (hidle : ∀ m' : Mailbox C, m'.Live → m'.caller = m.caller → ¬ m'.Busy → m'.CanReturn c) :
    m.CanReturn c := by
  induction hn : m.stageRest using Nat.strong_induction_on generalizing m with
  | _ n ih =>
    by_cases hbusy : m.Busy
    · obtain ⟨m', hstep, hcal, hlt⟩ := h.stage_closer hbusy
      have hm' : m.step (.stage false) = .ok m' := hstep
      refine canReturn_step hm' (.inl rfl) (ih _ (hn ▸ hlt) (h.step hm') ?_ rfl)
      rwa [hcal]
    · exact hidle m h rfl hbusy

theorem Live.canReturn_of_not_looks (h : m.Live) (hc : ¬ (m.caller c).Looks) : m.CanReturn c := by
  by_cases hinl : (m.caller c).Inlined
  · exact h.release hinl fun m' _ hm' _ => canReturn_out (by rw [hm', update_self])
  · refine h.canReturn_of_idle fun m' h' hcal hidle => ?_
    rw [← hcal] at hc hinl
    refine h'.caller c fun _ => canReturn_out ?_
    cases hpc : m'.caller c with
    | out => simp [stepCaller, hpc]
    | wait =>
      have hdone : m'.done c = true := by
        by_contra hnot
        exact hidle ⟨c, h'.waits c hpc (Bool.eq_false_of_not_eq_true hnot)⟩
      simp [stepCaller, goto, hpc, hdone]
    | _ => grind

/-- A caller that finds the word closed or empty takes it or posts its job, after at most two
accesses more. -/
theorem Live.canReturn_of_free (h : m.Live) (hc : (m.caller c).Looks)
    (hword : m.word = .closed ∨ m.word = .empty) : m.CanReturn c := by
  have hswap {m : Mailbox C} (h : m.Live) (hfit : m.caller c = .claim ∧ m.word = .closed ∨
      m.caller c = .post ∧ m.word = .empty) : m.CanReturn c := by
    refine h.caller c fun h => h.canReturn_of_not_looks ?_
    rcases hfit with ⟨hc, hword⟩ | ⟨hc, hword⟩ <;>
      simp [stepCaller, goto, hc, hword, CallerPc.Looks]
  have hload {m : Mailbox C} (h : m.Live) (hc : m.caller c = .load)
      (hword : m.word = .closed ∨ m.word = .empty) : m.CanReturn c := by
    refine h.caller c fun h => hswap h ?_
    rcases hword with hword | hword <;> simp [stepCaller, goto, hc, hword]
  rcases hc with hc | hc | hc
  · exact hload h hc hword
  · rcases hword with hword | hword
    · refine h.caller c fun h => hload h ?_ ?_ <;> simp [stepCaller, goto, hc, hword]
    · exact hswap h (.inr ⟨hc, hword⟩)
  · rcases hword with hword | hword
    · exact hswap h (.inl ⟨hc, hword⟩)
    · refine h.caller c fun h => hload h ?_ ?_ <;> simp [stepCaller, goto, hc, hword]

theorem Live.canReturn (h : m.Live) (c : C) : m.CanReturn c := by
  by_cases hc : (m.caller c).Looks
  · refine h.canReturn_of_idle fun m' h' hcal hidle => ?_
    rw [← hcal] at hc
    have hopen := h'.open_word
    have hshut := h'.shut_word
    by_cases hword : m'.word = .inlined
    · obtain ⟨w, hw⟩ := h'.inliner hword
      have hne : c ≠ w := by grind
      refine h'.release hw fun m' h' hm' hword => h'.canReturn_of_free ?_ (.inl hword)
      rwa [hm', update_of_ne hne]
    · exact h'.canReturn_of_free hc (by grind)
  · exact h.canReturn_of_not_looks hc

/-- **No call is stuck.**  After every run each call that is under way can return, by accesses of
the stage and of the calls under way alone: no caller, publication or end of the stage has to come
to its help, and no exchange has to fail. -/
theorem call_can_return {actions : List (MailboxAction C)} (h : runMailbox {} actions = .ok m)
    (c : C) : ∃ more, (∀ a ∈ more, a = .stage false ∨ ∃ w, a = .caller w false) ∧
      ∃ m', runMailbox {} (actions ++ more) = .ok m' ∧ m'.caller c = .out := by
  have hlive : m.Live := foldlM_inv Live ⟨start_sound, by rintro ⟨⟩⟩
    (fun _ _ _ _ hlive hstep => hlive.step hstep) h
  obtain ⟨more, hall, m', hrun, hout⟩ := hlive.canReturn c
  refine ⟨more, hall, m', ?_, hout⟩
  rw [runMailbox, foldlM_append, show actions.foldlM step {} = .ok m from h]
  exact hrun

/-- Both calls of `postedAtClose` can return, though the two jobs overlap. -/
theorem call_can_return_overlapped : ∃ m, runMailbox {} postedAtClose = .ok m ∧
    ∀ c, ∃ more, (∀ a ∈ more, a = .stage false ∨ ∃ w, a = .caller w false) ∧
      ∃ m', runMailbox {} (postedAtClose ++ more) = .ok m' ∧ m'.caller c = .out := by
  obtain ⟨m, hrun, -⟩ := ok_of_eval (show (runMailbox {} postedAtClose).toOption.map
    (fun m => m.caller false) = some .run by decide +kernel)
  exact ⟨m, hrun, call_can_return hrun⟩

end Mailbox
end Crucible
