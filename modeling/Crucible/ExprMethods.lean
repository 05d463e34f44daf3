import Crucible.IndexingSoundness
import Crucible.LogicSoundness

/-! # Every expression that the pool builds

The public constructors as one type, the expressions that any sequence of calls builds, and what
the ring and logic constructors return: the mathematical value of the operation that the caller
asked for, whatever was flattened, folded, collected or nested.
-/
namespace Crucible
open List Assignment
open Saturating ExprEnv

/-- The methods of `ExprPool` that build a node from others. -/
inductive Ctor where
  | add | addN | mul | mulN | neg | pow
  | eq | ne | lt | le | gt | ge
  | and | andN | or | orN | not
  | minExpr | minN | maxExpr | maxN | whereExpr
  | floorDiv | cleanDiv | ceilDiv | mod | pythonMod | modularIndexing
  | make (op : Op)
deriving DecidableEq

namespace Ctor

/-- The operation that a call asks for. -/
def op : Ctor → Op
  | add | addN => .add
  | mul | mulN => .mul
  | neg => .neg
  | pow => .pow
  | eq => .eq
  | ne => .ne
  | lt => .lt
  | le => .le
  | gt => .gt
  | ge => .ge
  | and | andN => .and
  | or | orN => .or
  | not => .not
  | minExpr | minN => .min
  | maxExpr | maxN => .max
  | whereExpr => .whereOp
  | floorDiv => .floorDiv
  | cleanDiv => .cleanDiv
  | ceilDiv => .ceilDiv
  | mod => .mod
  | pythonMod => .pythonMod
  | modularIndexing => .modularIndexing
  | make op => op

/-- The call.  The number of operands is fixed by the signature of a method that takes no span. -/
def run (env : ExprEnv) : Ctor → List Expr → Building Expr
  | add, [l, r] => env.add l r
  | addN, args => env.addN args
  | mul, [l, r] => env.mul l r
  | mulN, args => env.mulN args
  | neg, [e] => env.neg e
  | pow, [b, n] => ExprEnv.pow b n
  | eq, [l, r] => pure (env.eq l r)
  | ne, [l, r] => pure (env.ne l r)
  | lt, [l, r] => pure (env.lt l r)
  | le, [l, r] => pure (env.le l r)
  | gt, [l, r] => pure (env.gt l r)
  | ge, [l, r] => pure (env.ge l r)
  | and, [l, r] => env.and l r
  | andN, args => env.andN args
  | or, [l, r] => env.or l r
  | orN, args => env.orN args
  | not, [e] => env.not e
  | minExpr, [l, r] => env.minExpr l r
  | minN, args => env.minN args
  | maxExpr, [l, r] => env.maxExpr l r
  | maxN, args => env.maxN args
  | whereExpr, [c, a, b] => pure (env.whereExpr c a b)
  | floorDiv, [l, r] => env.floorDiv l r
  | cleanDiv, [l, r] => env.cleanDiv l r
  | ceilDiv, [l, r] => env.ceilDiv l r
  | mod, [l, r] => pure (env.mod l r)
  | pythonMod, [l, r] => env.pythonMod l r
  | modularIndexing, [base, div, modulus] => env.modularIndexing base div modulus
  | make op, args => env.make op args
  | _, _ => fatal

/-- The least and the greatest number of operands. -/
def band : Ctor → Nat × Nat
  | addN | mulN | andN | orN => (0, maxArgs)
  | minN | maxN => (1, maxArgs)
  | neg | not => (1, 1)
  | whereExpr | modularIndexing => (3, 3)
  | make op => opArityBand op
  | _ => (2, 2)

def Accepts (c : Ctor) (n : Nat) : Prop := c.band.1 ≤ n ∧ n ≤ c.band.2

instance (c : Ctor) (n : Nat) : Decidable (c.Accepts n) := inferInstanceAs (Decidable (_ ∧ _))

/-- The method that `make` calls; an operation without one is interned as it is. -/
def named : Op → Nat → Option Ctor
  | .add, 2 => some add
  | .add, _ => some addN
  | .mul, 2 => some mul
  | .mul, _ => some mulN
  | .and, 2 => some and
  | .and, _ => some andN
  | .or, 2 => some or
  | .or, _ => some orN
  | .min, 2 => some minExpr
  | .min, _ => some minN
  | .max, 2 => some maxExpr
  | .max, _ => some maxN
  | .pow, _ => some pow
  | .neg, _ => some neg
  | .eq, _ => some eq
  | .ne, _ => some ne
  | .lt, _ => some lt
  | .le, _ => some le
  | .gt, _ => some gt
  | .ge, _ => some ge
  | .not, _ => some not
  | .floorDiv, _ => some floorDiv
  | .cleanDiv, _ => some cleanDiv
  | .ceilDiv, _ => some ceilDiv
  | .mod, _ => some mod
  | .pythonMod, _ => some pythonMod
  | .modularIndexing, _ => some modularIndexing
  | .whereOp, _ => some whereExpr
  | _, _ => none

end Ctor

/-- The expressions that any sequence of calls builds over integers, symbols and truth values.
The folds of a call may saturate. -/
inductive Built (env : ExprEnv) : Expr → Prop where
  | integer {v : Int} : InRange v → Built env (.integer v)
  | symbol (id : BitVec 32) (flags : Flags) (name : Int) : Built env (.symbol id flags name)
  | boolTrue : Built env .boolTrue
  | boolFalse : Built env .boolFalse
  | call {c : Ctor} {args : List Expr} {e : Expr} {log : List Int} : c.Accepts args.length →
    (∀ a ∈ args, Built env a) → c.run env args = .ok (e, log) → Built env e

def integerOps : List Op :=
  [.add, .mul, .neg, .pow, .min, .max, .floorDiv, .cleanDiv, .ceilDiv, .mod, .pythonMod,
    .modularIndexing]

/-- An expression has the value of an operation on the operands: the truth value, the integer,
or both if the operation passes an operand on. -/
def Returns (σ : Assignment) (op : Op) (args : List Expr) (e : Expr) : Prop :=
  if op ∈ truthOps then σ.boolOf e = (σ.apply op 0 0 (args.map σ.eval)).bool
  else if op ∈ integerOps then σ.intOf e = (σ.apply op 0 0 (args.map σ.eval)).int
  else σ.eval e = σ.apply op 0 0 (args.map σ.eval)

theorem returns_iff_node (σ : Assignment) (op : Op) (args : List Expr) (e : Expr) :
    Returns σ op args e ↔
      if op ∈ truthOps then σ.boolOf e = σ.boolOf (.mk op 0 0 0 args)
      else if op ∈ integerOps then σ.intOf e = σ.intOf (.mk op 0 0 0 args)
      else σ.eval e = σ.eval (.mk op 0 0 0 args) := by
  rw [Returns, boolOf, intOf, boolOf, intOf, σ.eval_mk]

/-- What the ring and logic constructors do: they return, and if the folds are exact then the
result has the value of the operation. -/
def Sound (env : ExprEnv) (P : Int → Prop) (op : Op) (args : List Expr) (x : Building Expr) :
    Prop :=
  Fold.Yields P x (WellFormed env) fun e =>
    (∀ σ : Assignment, Returns σ op args e) ∧
      ∀ p, Closed P p → ClosedLogic p → (∀ a ∈ args, Everywhere p a) → Everywhere p e

section Sound
variable {env : ExprEnv} {P : Int → Prop} {op : Op} {args : List Expr} {x : Building Expr}

theorem Computes.sound {w : Nat} {value : Assignment → Int} (h : Computes env P args w value x)
    (hop : op ∉ truthOps ∧ op ∈ integerOps)
    (hval : ∀ σ : Assignment, value σ = σ.intOf (.mk op 0 0 0 args)) : Sound env P op args x := by
  refine h.imp (fun _ h => h.1) fun e _ hQ => ⟨fun σ => ?_, fun p hp _ => hQ.2 p hp⟩
  rw [returns_iff_node, if_neg hop.1, if_pos hop.2, ← hval]
  exact hQ.1 σ

theorem sound_of_logical {absorbing unit : Expr} {u : Bool} (h : Logical op absorbing unit u)
    (hx : Fold.Yields P x (WellFormed env) fun e =>
      (∀ σ : Assignment, σ.boolOf e = u ↔ AllAre σ u args) ∧
        ∀ p, ClosedLogic p → (∀ i ∈ args, Everywhere p i) → Everywhere p e) :
    Sound env P op args x := by
  have htruth : op ∈ truthOps := by
    cases h with
    | and => decide
    | or => decide
  refine hx.weaken fun e _ hQ => ⟨fun σ => ?_, fun p _ hp => hQ.2 p hp⟩
  rw [returns_iff_node, if_pos htruth]
  have hiff : σ.boolOf e = u ↔ σ.boolOf (.mk op 0 0 0 args) = u :=
    (hQ.1 σ).trans (h.boolOf_iff σ (e := .mk op 0 0 0 args) rfl).symm
  revert hiff
  cases u <;> cases σ.boolOf e <;> cases σ.boolOf (.mk op 0 0 0 args) <;> simp

variable {le : Int → Int → Prop}

theorem sound_choiceN (h : Chooses op le) (hne : args ≠ [])
    (hlen : args.length ≤ maxArgs) (hwf : ∀ a ∈ args, WellFormed env a) :
    Sound env P op args (env.choiceN op args) := by
  have hop : op ∉ truthOps ∧ op ∈ integerOps := by
    cases h with
    | min => decide
    | max => decide
  refine (choiceN_yields h hne hlen hwf).weaken fun e _ hQ =>
    ⟨fun σ => ?_, fun p _ hp => hQ.2 p hp⟩
  rw [returns_iff_node, if_neg hop.1, if_pos hop.2]
  exact hQ.1 σ _ (h.best_of_node σ (e := .mk op 0 0 0 args) rfl hne)

variable {l r : Expr}

theorem sound_choice (h : Chooses op le) {pick : Int → Int → Int}
    (hpick : ∀ x y, Best le (pick x y) [x, y]) (hl : WellFormed env l)
    (hr : WellFormed env r) : Sound env P op [l, r] (env.choice op pick l r) := by
  have hop : op ∉ truthOps ∧ op ∈ integerOps := by
    cases h with
    | min => decide
    | max => decide
  have hbest : ∀ σ : Assignment,
      Best le (σ.intOf (.mk op 0 0 0 [l, r])) [σ.intOf l, σ.intOf r] := fun σ =>
    h.best_of_node σ (e := .mk op 0 0 0 [l, r]) rfl (by simp)
  rw [choice]
  split_ifs with hsame hints
  · obtain rfl := (env.same_iff l r).mp hsame
    refine .pure hl ⟨fun σ => ?_, fun p _ _ hin => hin l mem_cons_self⟩
    rw [returns_iff_node, if_neg hop.1, if_pos hop.2]
    have hmem := (hbest σ).1
    simp only [mem_cons, not_mem_nil, or_false, or_self] at hmem
    exact hmem.symm
  · obtain ⟨hintl, hintr⟩ := hints
    have hmem := (hpick l.payload r.payload).1
    simp only [mem_cons, not_mem_nil, or_false] at hmem
    have heq : (Expr.integer (pick l.payload r.payload) = l) ∨
        (Expr.integer (pick l.payload r.payload) = r) := by
      rcases hmem with hmem | hmem
      · exact .inl (by rw [hmem, ← (hl.integer_eq hintl).1])
      · exact .inr (by rw [hmem, ← (hr.integer_eq hintr).1])
    refine .pure ?_ ⟨fun σ => ?_, fun p _ _ hin => ?_⟩
    · rcases heq with heq | heq <;> rw [heq]
      · exact hl
      · exact hr
    · rw [returns_iff_node, if_neg hop.1, if_pos hop.2, σ.intOf_integer]
      have hpick' := hpick l.payload r.payload
      rw [← σ.intOf_of_integer hintl, ← σ.intOf_of_integer hintr] at hpick' ⊢
      exact h.unique hpick' (hbest σ)
    · rcases heq with heq | heq <;> rw [heq]
      · exact hin l mem_cons_self
      · exact hin r (mem_cons_of_mem _ mem_cons_self)
  · exact sound_choiceN h (by simp) two_le_maxArgs (pair_wellFormed hl hr)

variable {holds : Int → Int → Bool}

theorem sound_relation {onSame : Bool} {operands : List Expr} (hop : op ∈ truthOps.drop 2)
    (hnot : op ≠ .not) (hperm : operands.Perm [l, r])
    (hl : WellFormed env l) (hr : WellFormed env r) (hsame : ∀ x, holds x x = onSame)
    (hnode : ∀ σ : Assignment,
      σ.boolOf (.mk op .isBoolean 0 0 operands) = holds (σ.intOf l) (σ.intOf r))
    (hvalue : ∀ σ : Assignment, σ.boolOf (.mk op 0 0 0 [l, r]) = holds (σ.intOf l) (σ.intOf r)) :
    Sound env P op [l, r] (pure (env.relation op onSame holds operands l r)) := by
  obtain ⟨hwf, hval, hall⟩ := relation_spec hop hnot hperm hl hr hsame hnode
  refine .pure hwf ⟨fun σ => ?_, fun p _ hp hin => ?_⟩
  · rw [returns_iff_node, if_pos (mem_of_mem_drop hop), hval, hvalue]
  · exact hall p hp (hin l mem_cons_self) (hin r (mem_cons_of_mem _ mem_cons_self))

theorem ordered_perm (env : ExprEnv) (l r : Expr) : (env.ordered l r).Perm [l, r] := by
  rw [env.ordered_eq]
  exact env.sorted_perm _

theorem ordered_cases (env : ExprEnv) (l r : Expr) :
    env.ordered l r = [l, r] ∨ env.ordered l r = [r, l] := by
  rw [ordered]
  split
  · exact .inr rfl
  · exact .inl rfl

theorem boolOf_node (σ : Assignment) (flags : Flags) (args : List Expr) :
    σ.boolOf (.mk op flags 0 0 args) = (σ.apply op 0 0 (args.map σ.eval)).bool := by
  rw [boolOf, σ.eval_mk]

theorem sound_symmetric {onSame : Bool} (hop : op ∈ truthOps.drop 2) (hnot : op ≠ .not)
    (hl : WellFormed env l) (hr : WellFormed env r) (hsame : ∀ x, holds x x = onSame)
    (hsymm : ∀ x y, holds x y = holds y x)
    (hval : ∀ (σ : Assignment) (a b : Value), (σ.apply op 0 0 [a, b]).bool = holds a.int b.int) :
    Sound env P op [l, r] (pure (env.relation op onSame holds (env.ordered l r) l r)) := by
  refine sound_relation hop hnot (ordered_perm env l r) hl hr hsame ?_ ?_
  · intro σ
    rw [boolOf_node]
    rcases ordered_cases env l r with h | h <;> rw [h]
    · exact hval σ _ _
    · exact (hval σ _ _).trans (hsymm _ _)
  · intro σ
    exact hval σ _ _

theorem sound_comparison {onSame : Bool}
    (hop : op ∈ [Op.lt, .le, .gt, .ge]) (hl : WellFormed env l) (hr : WellFormed env r)
    (hsame : ∀ x, holds x x = onSame)
    (hval : ∀ (σ : Assignment) (a b : Value), (σ.apply op 0 0 [a, b]).bool = holds a.int b.int) :
    Sound env P op [l, r] (pure (env.relation op onSame holds [l, r] l r)) := by
  have hops : op ∈ truthOps.drop 2 ∧ op ≠ .not := by
    simp only [mem_cons, not_mem_nil, or_false] at hop
    rcases hop with rfl | rfl | rfl | rfl <;> decide
  have hnode : ∀ (σ : Assignment) (flags : Flags),
      σ.boolOf (.mk op flags 0 0 [l, r]) = holds (σ.intOf l) (σ.intOf r) := by
    intro σ flags
    exact hval σ _ _
  exact sound_relation hops.1 hops.2 (.refl _) hl hr hsame (fun σ => hnode σ _) fun σ => hnode σ _

end Sound

/-! ### All the ring and logic constructors -/

/-- The operations with a mathematical value for all operands. -/
def valueOps : List Op :=
  [.add, .mul, .neg, .pow, .min, .max, .eq, .ne, .lt, .le, .gt, .ge, .and, .or, .not, .whereOp]

section Run
variable {env : ExprEnv} {P : Int → Prop} {args : List Expr}

variable {l r e b a : Expr}

theorem sound_add (hP : ∀ v, P v → InRange v) (hl : WellFormed env l)
    (hr : WellFormed env r) : Sound env P .add [l, r] (env.add l r) := by
  refine (add_computes hP hl hr).sound (by decide) fun σ => ?_
  rw [σ.intOf_add (e := .mk .add 0 0 0 [l, r]) rfl]
  simp

theorem sound_mul (hP : ∀ v, P v → InRange v) (hl : WellFormed env l)
    (hr : WellFormed env r) : Sound env P .mul [l, r] (env.mul l r) := by
  refine (mul_computes hP hl hr).sound (by decide) fun σ => ?_
  rw [σ.intOf_mul (e := .mk .mul 0 0 0 [l, r]) rfl]
  simp

theorem sound_neg (hP : ∀ v, P v → InRange v) (he : WellFormed env e) :
    Sound env P .neg [e] (env.neg e) := by
  refine (neg_computes hP he).sound (by decide) fun σ => ?_
  rw [intOf, intOf, σ.eval_mk]
  rfl

theorem sound_pow (hP : ∀ v, P v → InRange v) {n : Expr} (hb : WellFormed env b)
    (hn : WellFormed env n) : Sound env P .pow [b, n] (pow b n) := by
  refine (pow_yields hP hb hn).weaken fun e _ hQ =>
    ⟨fun σ => ?_, fun p hp _ => hQ.2 p hp⟩
  rw [Returns, if_neg (by decide), if_pos (by decide)]
  exact hQ.1 σ

theorem sound_not (he : WellFormed env e) : Sound env P .not [e] (env.not e) := by
  refine (not_yields he).weaken fun e' _ hQ =>
    ⟨fun σ => ?_, fun p _ hp hin => hQ.2 p hp (hin e mem_cons_self)⟩
  rw [Returns, if_pos (by decide)]
  exact hQ.1 σ

theorem sound_where {c : Expr} (hc : WellFormed env c) (ha : WellFormed env a)
    (hb : WellFormed env b) : Sound env P .whereOp [c, a, b] (pure (env.whereExpr c a b)) := by
  obtain ⟨hwf, hval, hall⟩ := whereExpr_spec hc ha hb
  refine .pure hwf ⟨fun σ => ?_, fun p _ hp hin => ?_⟩
  · rw [Returns, if_neg (by decide), if_neg (by decide), hval σ]
    rfl
  · exact hall p hp (hin c (by simp)) (hin a (by simp)) (hin b (by simp))

theorem best_min (x y : Int) : Best (· ≤ ·) (min x y) [x, y] := by
  simp only [Best, mem_cons, not_mem_nil, or_false, forall_eq_or_imp, forall_eq]
  omega

theorem best_max (x y : Int) : Best (· ≥ ·) (max x y) [x, y] := by
  simp only [Best, mem_cons, not_mem_nil, or_false, forall_eq_or_imp, forall_eq]
  omega

theorem two_operands (hwf : ∀ a ∈ args, WellFormed env a) (h : 2 ≤ args.length ∧ args.length ≤ 2) :
    ∃ l r, args = [l, r] ∧ WellFormed env l ∧ WellFormed env r := by
  obtain ⟨l, r, rfl⟩ := length_eq_two.mp (le_antisymm h.2 h.1)
  exact ⟨l, r, rfl, hwf l (by simp), hwf r (by simp)⟩

/-- **The ring and logic methods return the value of the operation.** -/
theorem run_sound (hP : ∀ v, P v → InRange v) {c : Ctor} (hc : c.op ∈ valueOps)
    (hmake : ∀ op, c ≠ .make op) (hacc : c.Accepts args.length)
    (hwf : ∀ a ∈ args, WellFormed env a) : Sound env P c.op args (c.run env args) := by
  have hone : args.length = 1 → ∃ e, args = [e] ∧ WellFormed env e := by
    intro h
    obtain ⟨e, rfl⟩ := length_eq_one_iff.mp h
    exact ⟨e, rfl, hwf e mem_cons_self⟩
  obtain ⟨hleast, hmost⟩ := hacc
  cases c
  case addN =>
    refine (addN_computes hP hmost hwf).sound (by decide) fun σ => ?_
    exact (σ.intOf_add (e := .mk .add 0 0 0 args) rfl).symm
  case mulN =>
    refine (mulN_computes hP hmost hwf).sound (by decide) fun σ => ?_
    exact (σ.intOf_mul (e := .mk .mul 0 0 0 args) rfl).symm
  case andN => exact sound_of_logical .and (logicN_yields .and hmost hwf)
  case orN => exact sound_of_logical .or (logicN_yields .or hmost hwf)
  case minN =>
    exact sound_choiceN .min (ne_nil_of_length_pos hleast) hmost hwf
  case maxN =>
    exact sound_choiceN .max (ne_nil_of_length_pos hleast) hmost hwf
  case neg =>
    obtain ⟨e, rfl, he⟩ := hone (le_antisymm hmost hleast)
    exact sound_neg hP he
  case not =>
    obtain ⟨e, rfl, he⟩ := hone (le_antisymm hmost hleast)
    exact sound_not he
  case whereExpr =>
    obtain ⟨c, a, b, rfl⟩ := length_eq_three.mp (le_antisymm hmost hleast)
    exact sound_where (hwf c (by simp)) (hwf a (by simp)) (hwf b (by simp))
  case make op => exact absurd rfl (hmake op)
  case floorDiv | cleanDiv | ceilDiv | mod | pythonMod | modularIndexing =>
    exact absurd hc (by decide)
  -- the methods of two operands
  all_goals obtain ⟨l, r, rfl, hl, hr⟩ := two_operands hwf ⟨hleast, hmost⟩
  case add => exact sound_add hP hl hr
  case mul => exact sound_mul hP hl hr
  case pow => exact sound_pow hP hl hr
  case eq =>
    exact sound_symmetric (by decide) (by decide) hl hr (by simp)
      (fun _ _ => decide_eq_decide.mpr eq_comm) fun _ _ _ => rfl
  case ne =>
    exact sound_symmetric (by decide) (by decide) hl hr (by simp)
      (fun _ _ => decide_eq_decide.mpr ne_comm) fun _ _ _ => rfl
  case lt | le | gt | ge =>
    exact sound_comparison (by decide) hl hr (by simp) fun _ _ _ => rfl
  case and => exact sound_of_logical .and (logic_yields .and hl hr)
  case or => exact sound_of_logical .or (logic_yields .or hl hr)
  case minExpr => exact sound_choice .min best_min hl hr
  case maxExpr => exact sound_choice .max best_max hl hr

/-! ### `make` -/

theorem make_cases (env : ExprEnv) {op : Op} (hacc : (Ctor.make op).Accepts args.length) :
    (∃ c, Ctor.named op args.length = some c ∧ c.op = op ∧ (∀ op, c ≠ .make op) ∧
        c.Accepts args.length ∧ env.make op args = c.run env args) ∨
      (Ctor.named op args.length = none ∧ env.make op args = pure (.composite op args)) := by
  have hband : (opArityBand op).1 ≤ args.length ∧ args.length ≤ (opArityBand op).2 := hacc
  rw [make.eq_def, if_neg (by omega)]
  rcases args with _ | ⟨a, _ | ⟨b, _ | ⟨c, _ | ⟨d, rest⟩⟩⟩⟩ <;> cases op <;>
    simp only [opArityBand, length_cons, length_nil] at hband <;>
    first
    | omega
    | exact .inl ⟨_, rfl, rfl, nofun, hacc, rfl⟩
    | exact .inl ⟨_, rfl, rfl, nofun, ⟨zero_le, hacc.2⟩, rfl⟩
    | exact .inl ⟨_, rfl, rfl, nofun, ⟨le_rfl, le_rfl⟩, rfl⟩
    | exact .inr ⟨rfl, rfl⟩

theorem plain_of_unnamed {op : Op} {n : Nat} (hnone : Ctor.named op n = none)
    (hacc : (Ctor.make op).Accepts n) :
    op ≠ .float ∧ op ≠ .integer ∧ op ≠ .add ∧ op ≠ .mul ∧ op ≠ .floorDiv ∧ op ≠ .cleanDiv ∧
      op ≠ .not ∧ op ≠ .min ∧ op ≠ .max := by
  refine ⟨?_, ?_, ?_, ?_, ?_, ?_, ?_, ?_, ?_⟩ <;> rintro rfl
  · exact absurd (hacc.1.trans hacc.2) (by decide)
  · exact absurd (hacc.1.trans hacc.2) (by decide)
  all_goals
    rw [Ctor.named.eq_def] at hnone
    split at hnone <;> simp_all

theorem method_wellFormed {c : Ctor} (hmake : ∀ op, c ≠ .make op)
    (hacc : c.Accepts args.length) (hwf : ∀ a ∈ args, WellFormed env a) :
    Fold.Yields InRange (c.run env args) (WellFormed env) fun _ => True := by
  have hP : ∀ v, InRange v → InRange v := fun _ h => h
  have hhalf : ∀ v : Int, v.natAbs ≤ 2 ^ 62 → InRange v := by
    intro v hv
    rw [InRange]
    omega
  by_cases hval : c.op ∈ valueOps
  · exact (run_sound hP hval hmake hacc hwf).weaken fun _ _ _ => trivial
  obtain ⟨hleast, hmost⟩ := hacc
  cases c
  case make op => exact absurd rfl (hmake op)
  case modularIndexing =>
    obtain ⟨base, div, modulus, rfl⟩ := length_eq_three.mp (le_antisymm hmost hleast)
    have hind := modularIndexing_indexes hP hhalf (hwf base (by simp)) (hwf div (by simp))
      (hwf modulus (by simp))
    exact hind.weaken fun _ _ _ => trivial
  all_goals try exact absurd (show _ ∈ valueOps by decide) hval
  -- the methods of two operands
  all_goals obtain ⟨l, r, rfl, hl, hr⟩ := two_operands hwf ⟨hleast, hmost⟩
  case floorDiv | cleanDiv =>
    exact (floorDiv_divides hP hhalf hl hr).weaken fun _ _ _ => trivial
  case ceilDiv => exact (ceilDiv_yields hP hhalf hl hr).weaken fun _ _ _ => trivial
  case mod => exact .pure (mod_spec hhalf hl hr).1 trivial
  case pythonMod => exact (pythonMod_yields hP hhalf hl hr).weaken fun _ _ _ => trivial

/-- **Every call that a method takes returns a node of the right shape.** -/
theorem run_wellFormed {c : Ctor} (hacc : c.Accepts args.length)
    (hwf : ∀ a ∈ args, WellFormed env a) :
    Fold.Yields InRange (c.run env args) (WellFormed env) fun _ => True := by
  by_cases hmake : ∀ op, c ≠ .make op
  · exact method_wellFormed hmake hacc hwf
  · obtain ⟨op, rfl⟩ : ∃ op, c = .make op := by
      simpa using hmake
    have hlen : args.length ≤ maxArgs := by
      refine hacc.2.trans ?_
      cases op <;> decide
    show Fold.Yields InRange (env.make op args) _ _
    rcases make_cases env hacc with ⟨c, -, -, hmake, hacc, hrun⟩ | ⟨hnone, hrun⟩
    · rw [hrun]
      exact method_wellFormed hmake hacc hwf
    · rw [hrun]
      exact .pure (.plain (plain_of_unnamed hnone hacc) hlen hwf) trivial

/-- **Every expression that calls build has the right shape.** -/
theorem Built.wellFormed (h : Built env e) : WellFormed env e := by
  induction h with
  | integer hv => exact .integer hv
  | symbol id flags name => exact .plain (by decide) zero_le nofun
  | boolTrue => exact wellFormed_boolTrue
  | boolFalse => exact wellFormed_boolFalse
  | call hacc _ hrun ih => exact ((run_wellFormed hacc ih).of_eq hrun).1

/-- **The ring and logic constructors are sound.**  Over operands that any calls built, a call
returns, and unless a fold saturates the value of the node is that of the operation. -/
theorem ring_logic_value (env : ExprEnv) {c : Ctor} (hc : c.op ∈ valueOps) {args : List Expr}
    (haccepts : c.Accepts args.length) (hbuilt : ∀ a ∈ args, Built env a) :
    ∃ e log, c.run env args = .ok (e, log) ∧
      ((∀ v ∈ log, InRange v) → ∀ σ : Assignment, Returns σ c.op args e) := by
  have hwf : ∀ a ∈ args, WellFormed env a := fun a ha => (hbuilt a ha).wellFormed
  have hsound : Sound env InRange c.op args (c.run env args) := by
    by_cases hmake : ∀ op, c ≠ .make op
    · exact run_sound (fun _ h => h) hc hmake haccepts hwf
    · obtain ⟨op, rfl⟩ : ∃ op, c = .make op := by
        simpa using hmake
      show Sound env InRange op args (env.make op args)
      rcases make_cases env haccepts with ⟨c, -, rfl, hmake, haccepts', hrun⟩ | ⟨hnone, -⟩
      · rw [hrun]
        exact run_sound (fun _ h => h) hc hmake haccepts' hwf
      · exfalso
        change op ∈ valueOps at hc
        simp only [valueOps, mem_cons, not_mem_nil, or_false] at hc
        rw [Ctor.named.eq_def] at hnone
        split at hnone <;> simp_all
  obtain ⟨e, log, hrun, -, hvalue⟩ := hsound
  exact ⟨e, log, hrun, fun hlog => (hvalue hlog).1⟩

theorem ring_logic_value_sum :
    ∃ e log, Ctor.addN.run .numbered [.symbol 0 0 0, .integer 3, .symbol 0 0 0] = .ok (e, log) ∧
      ((∀ v ∈ log, InRange v) → ∀ σ : Assignment,
        Returns σ .add [.symbol 0 0 0, .integer 3, .symbol 0 0 0] e) := by
  refine ring_logic_value .numbered (c := .addN) (by decide) ⟨by decide, by decide⟩ ?_
  simp only [mem_cons, not_mem_nil, or_false, forall_eq_or_imp, forall_eq]
  exact ⟨.symbol 0 0 0, .integer (by decide), .symbol 0 0 0⟩

/-! ### Division -/

variable {σ : Assignment}

/-- The constants of a node meet a condition, and quotients are by positive divisors. -/
def NodeSafe (C : Int → Prop) (σ : Assignment) (e : Expr) : Prop :=
  (e.op = .integer → C e.payload) ∧
    (e.op = .floorDiv ∨ e.op = .cleanDiv → ∀ x c, e.args = [x, c] → 0 < σ.intOf c)

theorem nodeSafe_of_other {C : Int → Prop} (hint : e.op ≠ .integer)
    (hdiv : e.op ≠ .floorDiv) (hclean : e.op ≠ .cleanDiv) : NodeSafe C σ e :=
  ⟨fun h => absurd h hint, fun h => (h.elim hdiv hclean).elim⟩

theorem nodeSafe_integer {C : Int → Prop} {v : Int} (h : C v) : NodeSafe C σ (.integer v) := by
  refine ⟨fun _ => h, ?_⟩
  rintro (hdiv | hclean)
  · exact nomatch hdiv
  · exact nomatch hclean

theorem tame_nodeSafe {C : Int → Prop} (σ : Assignment) (hC : ∀ v, P v → C v)
    (hsmall : ∀ v : Int, -1 ≤ v → v ≤ 2 → C v) (hmin : ∀ v, C v → v ≠ int64Min) :
    Tame P σ (NodeSafe C σ) where
  composite := by
    rintro op args (rfl | rfl) <;> apply nodeSafe_of_other <;> rintro ⟨⟩
  power := fun args => by apply nodeSafe_of_other <;> rintro ⟨⟩
  integer := fun v hv => nodeSafe_integer (hC v hv)
  small := fun v hlow hhigh => nodeSafe_integer (hsmall v hlow hhigh)
  minless := fun e he hop => hmin _ (he.1 hop)
  divisor := fun e he hop x c hargs => he.2 hop x c hargs
  quotient := by
    intro l r _ _ hpos
    refine ⟨by rintro ⟨⟩, fun _ x c hargs => ?_⟩
    obtain ⟨-, rfl⟩ : l = x ∧ r = c := by
      simpa [quotientNode] using hargs
    exact hpos

/-- What `modular_indexing` expects of the nodes of the base and of the divisor: no constant is
at the edge of the type, and quotients are by positive divisors. -/
def IndexSafe (σ : Assignment) (e : Expr) : Prop :=
  (e.op = .integer → e.payload.natAbs < 2 ^ 63 - 1) ∧
    (e.op = .floorDiv ∨ e.op = .cleanDiv → ∀ x c, e.args = [x, c] → 0 < σ.intOf c)

theorem indexSafe_of_other (hint : e.op ≠ .integer) (hdiv : e.op ≠ .floorDiv)
    (hclean : e.op ≠ .cleanDiv) : IndexSafe σ e :=
  nodeSafe_of_other (C := fun v => v.natAbs < 2 ^ 63 - 1) hint hdiv hclean

theorem tame_indexSafe (σ : Assignment) :
    TameIndex (fun v => v.natAbs < 2 ^ 63 - 1) σ (IndexSafe σ) where
  toTame := tame_nodeSafe σ (fun _ h => h) (fun v _ _ => by omega)
    fun v hv => by rw [int64Min]; omega
  inside := fun e he hop => he.1 hop

end Run
end Crucible
