import Crucible.RingSoundness

/-! # The constructors of truth values and of choices

`and_n`, `or_n` and `not_` return a node with the truth value of the operation, `where` one with
the value of the branch, `min_n` and `max_n` the least and the greatest value.  No fold
saturates here.
-/
namespace Crucible
open List
open Saturating ExprEnv

/-- The operations whose nodes are truth values. -/
def truthOps : List Op :=
  [.boolTrue, .boolFalse, .eq, .ne, .lt, .le, .gt, .ge, .and, .or, .not]

/-- A property of nodes that truth values have, and choices between nodes with it. -/
structure ClosedLogic (p : Expr → Prop) : Prop where
  truth : ∀ op args, op ∈ truthOps → p (.mk op .isBoolean 0 0 args)
  choice : ∀ op args, op = .min ∨ op = .max → p (.composite op args)
  either : ∀ cond a b, p a → p b → p (.mk .whereOp (a.flags &&& b.flags) 0 0 [cond, a, b])

theorem ClosedLogic.everywhere_true {p : Expr → Prop} (h : ClosedLogic p) :
    Everywhere p .boolTrue := .node (h.truth .boolTrue [] (by decide)) nofun

theorem ClosedLogic.everywhere_false {p : Expr → Prop} (h : ClosedLogic p) :
    Everywhere p .boolFalse := .node (h.truth .boolFalse [] (by decide)) nofun

section Logic
variable {env : ExprEnv}

theorem wellFormed_boolTrue : WellFormed env .boolTrue := .plain (by decide) zero_le nofun

theorem wellFormed_boolFalse : WellFormed env .boolFalse :=
  .plain (by decide) zero_le nofun

/-- The two operations, with the operand that decides, the operand that changes nothing, and
the truth value of the latter. -/
inductive Logical : Op → Expr → Expr → Bool → Prop where
  | and : Logical .and .boolFalse .boolTrue true
  | or : Logical .or .boolTrue .boolFalse false

/-- All the expressions have one truth value. -/
def AllAre (σ : Assignment) (u : Bool) (l : List Expr) : Prop := ∀ e ∈ l, σ.boolOf e = u

variable {l l' inputs : List Expr} {u : Bool} {σ : Assignment}

theorem allAre_append : AllAre σ u (l ++ l') ↔ AllAre σ u l ∧ AllAre σ u l' := by
  simp only [AllAre, mem_append, or_imp, forall_and]

variable {e : Expr}

theorem allAre_cons : AllAre σ u (e :: l) ↔ σ.boolOf e = u ∧ AllAre σ u l := by
  simp only [AllAre, mem_cons, forall_eq_or_imp]

theorem AllAre.perm (h : l.Perm l') : AllAre σ u l ↔ AllAre σ u l' := by
  simp only [AllAre, h.mem_iff]

theorem boolOf_and (σ : Assignment) (h : e.op = .and) : σ.boolOf e = e.args.all σ.boolOf := by
  obtain ⟨op, flags, s, payload, args⟩ := e
  obtain rfl : op = .and := h
  rw [Assignment.boolOf, σ.eval_mk, Expr.args_mk]
  show (args.map σ.eval).all Value.bool = _
  rw [all_map]
  rfl

theorem boolOf_or (σ : Assignment) (h : e.op = .or) : σ.boolOf e = e.args.any σ.boolOf := by
  obtain ⟨op, flags, s, payload, args⟩ := e
  obtain rfl : op = .or := h
  rw [Assignment.boolOf, σ.eval_mk, Expr.args_mk]
  show (args.map σ.eval).any Value.bool = _
  rw [any_map]
  rfl

namespace Logical
variable {op : Op} {absorbing unit : Expr} {u : Bool} (h : Logical op absorbing unit u)
include h

theorem boolOf_unit (σ : Assignment) : σ.boolOf unit = u := by
  cases h with
  | and => exact σ.boolOf_boolTrue
  | or => exact σ.boolOf_boolFalse

theorem boolOf_absorbing (σ : Assignment) : σ.boolOf absorbing ≠ u := by
  cases h with
  | and => simp
  | or => simp

theorem boolOf_iff (σ : Assignment) {e : Expr} (hop : e.op = op) :
    σ.boolOf e = u ↔ AllAre σ u e.args := by
  cases h with
  | and => rw [boolOf_and σ hop, all_eq_true, AllAre]
  | or => simp only [boolOf_or σ hop, any_eq_false, AllAre, Bool.not_eq_true]

theorem wellFormed : WellFormed env unit ∧ WellFormed env absorbing := by
  cases h with
  | and => exact ⟨wellFormed_boolTrue, wellFormed_boolFalse⟩
  | or => exact ⟨wellFormed_boolFalse, wellFormed_boolTrue⟩

theorem everywhere {p : Expr → Prop} (hp : ClosedLogic p) :
    Everywhere p unit ∧ Everywhere p absorbing := by
  cases h with
  | and => exact ⟨hp.everywhere_true, hp.everywhere_false⟩
  | or => exact ⟨hp.everywhere_false, hp.everywhere_true⟩

theorem wellFormed_composite {args : List Expr} (hlen : args.length ≤ maxArgs)
    (hargs : ∀ a ∈ args, WellFormed env a) : WellFormed env (.composite op args) := by
  cases h with
  | and => exact .plain (by decide) hlen hargs
  | or => exact .plain (by decide) hlen hargs

theorem everywhere_composite {p : Expr → Prop} (hp : ClosedLogic p) {args : List Expr}
    (hargs : ∀ a ∈ args, Everywhere p a) : Everywhere p (.composite op args) := by
  cases h with
  | and => exact .node (hp.truth .and args (by decide)) hargs
  | or => exact .node (hp.truth .or args (by decide)) hargs

end Logical

/-- What a loop of `and_n` or `or_n` did with the operands: it stopped because one of them
decides, or it kept those that matter. -/
structure Decided (env : ExprEnv) (u : Bool) (inputs : List Expr) (r : Option (List Expr)) :
    Prop where
  decided : r = none → ∀ σ : Assignment, ¬ AllAre σ u inputs
  same : ∀ out, r = some out → ∀ σ : Assignment, AllAre σ u out ↔ AllAre σ u inputs
  wellFormed : ∀ out, r = some out → ∀ t ∈ out, WellFormed env t
  everywhere : ∀ out, r = some out → ∀ p : Expr → Prop, (∀ i ∈ inputs, Everywhere p i) →
    ∀ t ∈ out, Everywhere p t

theorem Decided.all (hwf : ∀ i ∈ inputs, WellFormed env i) :
    Decided env u inputs (some inputs) := by
  refine ⟨nofun, ?_, ?_, ?_⟩
  · rintro out ⟨⟩ σ
    exact Iff.rfl
  · rintro out ⟨⟩
    exact hwf
  · rintro out ⟨⟩ p hp
    exact hp

theorem Decided.none
    (h : ∀ σ : Assignment, ¬ AllAre σ u inputs) : Decided env u inputs Option.none :=
  ⟨fun _ => h, nofun, nofun, nofun⟩

theorem Decided.of_iff {r : Option (List Expr)} (h : Decided env u l r)
    (hsame : ∀ σ : Assignment, AllAre σ u l ↔ AllAre σ u l')
    (hp : ∀ p : Expr → Prop, (∀ i ∈ l', Everywhere p i) → ∀ i ∈ l, Everywhere p i) :
    Decided env u l' r := by
  refine ⟨fun hr σ hall => h.decided hr σ ((hsame σ).mpr hall), fun out hr σ => ?_, h.wellFormed,
    fun out hr p hall => h.everywhere out hr p (hp p hall)⟩
  exact (h.same out hr σ).trans (hsame σ)

section Loops
variable {op : Op} {absorbing unit : Expr} {u : Bool} {P : Int → Prop}

variable {l terms : List Expr}

theorem append_sublist_cons (terms : List Expr) (e : Expr) (l : List Expr) :
    terms ++ l <+ terms ++ e :: l := (sublist_cons_self e l).append_left terms

variable (h : Logical op absorbing unit u)
include h

theorem decided_absorbing : Decided env u (terms ++ absorbing :: l) none :=
  .none fun σ hall => h.boolOf_absorbing σ (hall absorbing (mem_append_right _ mem_cons_self))

theorem decided_unit {r : Option (List Expr)} (hkept : Decided env u (terms ++ l) r) :
    Decided env u (terms ++ unit :: l) r := by
  have hsub := append_sublist_cons terms unit l
  refine hkept.of_iff (fun σ => ?_) fun p hp i hi => hp i (hsub.subset hi)
  rw [allAre_append, allAre_append, allAre_cons, h.boolOf_unit]
  simp

theorem spliceLogic_yields
    (hwf : ∀ e ∈ terms ++ l, WellFormed env e) (hroom : (terms ++ l).length ≤ maxArgs) :
    Fold.Yields P (env.spliceLogic absorbing unit l terms)
      (fun r => Decided env u (terms ++ l) r ∧
        ∀ out, r = some out → out.length ≤ (terms ++ l).length)
      fun _ => True := by
  induction l generalizing terms with
  | nil =>
    rw [append_nil] at hwf ⊢
    refine .pure ⟨.all hwf, ?_⟩ trivial
    rintro out ⟨⟩
    exact le_rfl
  | cons e l ih =>
    have hsub := append_sublist_cons terms e l
    rw [spliceLogic]
    split_ifs with habs hunit hfull
    · obtain rfl := (env.same_iff e absorbing).mp habs
      exact .pure ⟨decided_absorbing h, nofun⟩ trivial
    · obtain rfl := (env.same_iff e unit).mp hunit
      refine (ih (fun e' he' => hwf e' (hsub.subset he')) (hsub.length_le.trans hroom)).imp
        (fun r hr => ⟨decided_unit h hr.1, fun out hout => ?_⟩) fun _ _ _ => trivial
      exact (hr.2 out hout).trans hsub.length_le
    · rw [length_append, length_cons] at hroom
      omega
    · rw [append_cons terms e l] at hwf hroom ⊢
      exact ih hwf hroom

theorem flattenLogic_yields
    (hwf : ∀ e ∈ terms ++ l, WellFormed env e) (hroom : (terms ++ l).length ≤ maxArgs) :
    Fold.Yields P (env.flattenLogic op absorbing unit l terms)
      (fun r => Decided env u (terms ++ l) r ∧ ∀ out, r = some out → out.length ≤ maxArgs)
      fun _ => True := by
  induction l generalizing terms with
  | nil =>
    rw [append_nil] at hwf hroom ⊢
    refine .pure ⟨.all hwf, ?_⟩ trivial
    rintro out ⟨⟩
    exact hroom
  | cons e l ih =>
    have hsub := append_sublist_cons terms e l
    rw [flattenLogic]
    split_ifs with habs hunit hopen hfull
    · obtain rfl := (env.same_iff e absorbing).mp habs
      exact .pure ⟨decided_absorbing h, nofun⟩ trivial
    · obtain rfl := (env.same_iff e unit).mp hunit
      exact (ih (fun e' he' => hwf e' (hsub.subset he')) (hsub.length_le.trans hroom)).imp
        (fun r hr => ⟨decided_unit h hr.1, hr.2⟩) fun _ _ _ => trivial
    · -- the operands of the operand take its place
      rw [forall_mem_append, forall_mem_cons] at hwf
      obtain ⟨hwft, hwfe, hwfl⟩ := hwf
      have hwf₁ : ∀ e' ∈ terms ++ e.args, WellFormed env e' :=
        forall_mem_append.mpr ⟨hwft, fun a ha => hwfe.arg ha⟩
      refine (spliceLogic_yields h hwf₁ (by rw [length_append]; omega)).bind fun r hr => ?_
      obtain ⟨hkept, hlen⟩ := hr
      have hargs : ∀ σ : Assignment, AllAre σ u (terms ++ e.args) ↔ AllAre σ u (terms ++ [e]) := by
        intro σ
        rw [allAre_append, allAre_append, ← h.boolOf_iff σ hopen.1, allAre_cons]
        simp [AllAre]
      cases r with
      | none =>
        refine .pure ⟨.none fun σ hall => ?_, nofun⟩ fun _ => trivial
        refine hkept.decided rfl σ ((hargs σ).mpr ?_)
        rw [allAre_append, allAre_cons] at hall
        rw [allAre_append, allAre_cons]
        exact ⟨hall.1, hall.2.1, nofun⟩
      | some out =>
        have hleno := hlen out rfl
        rw [length_append] at hleno
        have hwf₂ : ∀ e' ∈ out ++ l, WellFormed env e' :=
          forall_mem_append.mpr ⟨hkept.wellFormed out rfl, hwfl⟩
        refine (ih hwf₂ (by rw [length_append]; omega)).imp ?_ fun _ _ _ _ => trivial
        rintro r ⟨hkept', hlen'⟩
        refine ⟨hkept'.of_iff (fun σ => ?_) fun p hp => ?_, hlen'⟩
        · rw [allAre_append, hkept.same out rfl σ, hargs σ, allAre_append, allAre_append,
            allAre_cons, allAre_cons]
          simp [AllAre, and_assoc]
        · rw [forall_mem_append, forall_mem_cons] at hp
          refine forall_mem_append.mpr ⟨hkept.everywhere out rfl p ?_, hp.2.2⟩
          exact forall_mem_append.mpr ⟨hp.1, fun a ha => hp.2.1.arg ha⟩
    · rw [length_append, length_cons] at hroom
      omega
    · rw [append_cons terms e l] at hwf hroom ⊢
      exact ih hwf hroom

/-- **`and_n` and `or_n`.** -/
theorem logicN_yields {inputs : List Expr}
    (hlen : inputs.length ≤ maxArgs) (hwf : ∀ i ∈ inputs, WellFormed env i) :
    Fold.Yields P (env.logicN op absorbing unit inputs) (WellFormed env) fun e =>
      (∀ σ : Assignment, σ.boolOf e = u ↔ AllAre σ u inputs) ∧
        ∀ p, ClosedLogic p → (∀ i ∈ inputs, Everywhere p i) → Everywhere p e := by
  rw [logicN, if_neg (by omega)]
  refine (flattenLogic_yields h (show ∀ e ∈ [] ++ inputs, WellFormed env e from hwf)
    (by simpa using hlen)).bind fun r hr => ?_
  obtain ⟨hkept, hfew⟩ := hr
  rw [nil_append] at hkept
  match r with
  | none =>
    refine .pure h.wellFormed.2 fun _ => ⟨fun σ => ?_, fun p hp _ => (h.everywhere hp).2⟩
    exact iff_of_false (h.boolOf_absorbing σ) (hkept.decided rfl σ)
  | some [] =>
    refine .pure h.wellFormed.1 fun _ => ⟨fun σ => ?_, fun p hp _ => (h.everywhere hp).1⟩
    rw [← hkept.same [] rfl σ]
    exact iff_of_true (h.boolOf_unit σ) nofun
  | some [e] =>
    refine .pure (hkept.wellFormed [e] rfl e mem_cons_self) fun _ =>
      ⟨fun σ => ?_, fun p _ hall => hkept.everywhere [e] rfl p hall e mem_cons_self⟩
    rw [← hkept.same [e] rfl σ, allAre_cons]
    simp [AllAre]
  | some (a :: b :: l) =>
    have hlen' := hfew _ rfl
    have hperm := env.sorted_perm (a :: b :: l)
    simp only [intern]
    rw [if_neg (by omega)]
    have hwf' : WellFormed env (.composite op (env.sorted (a :: b :: l))) := by
      refine h.wellFormed_composite (by rw [hperm.length_eq]; exact hlen') fun t ht => ?_
      exact hkept.wellFormed _ rfl t (hperm.mem_iff.mp ht)
    refine .pure hwf' fun _ => ⟨fun σ => ?_, fun p hp hall => ?_⟩
    · rw [h.boolOf_iff σ (e := .composite op _) rfl, ← hkept.same _ rfl σ]
      exact AllAre.perm hperm
    · refine h.everywhere_composite hp fun t ht => ?_
      exact hkept.everywhere _ rfl p hall t (hperm.mem_iff.mp ht)

/-- **`and_` and `or_`.** -/
theorem logic_yields {l r : Expr} (hl : WellFormed env l) (hr : WellFormed env r) :
    Fold.Yields P (env.logic op absorbing unit l r) (WellFormed env) fun e =>
      (∀ σ : Assignment, σ.boolOf e = u ↔ AllAre σ u [l, r]) ∧
        ∀ p, ClosedLogic p → (∀ i ∈ [l, r], Everywhere p i) → Everywhere p e := by
  have hpair : ∀ σ : Assignment, AllAre σ u [l, r] ↔ σ.boolOf l = u ∧ σ.boolOf r = u := by
    intro σ
    simp [AllAre]
  rw [logic]
  split_ifs with habs hleft hrig hsame
  · refine .pure h.wellFormed.2 ⟨fun σ => ?_, fun p hp _ => (h.everywhere hp).2⟩
    refine iff_of_false (h.boolOf_absorbing σ) ?_
    rw [hpair]
    rintro ⟨hul, hur⟩
    rcases habs with heq | heq
    · exact h.boolOf_absorbing σ ((env.same_iff l absorbing).mp heq ▸ hul)
    · exact h.boolOf_absorbing σ ((env.same_iff r absorbing).mp heq ▸ hur)
  · obtain rfl := (env.same_iff l unit).mp hleft
    refine .pure hr ⟨fun σ => ?_, fun p _ hall => hall r (mem_cons_of_mem _ mem_cons_self)⟩
    rw [hpair, h.boolOf_unit]
    simp
  · obtain rfl := (env.same_iff r unit).mp hrig
    refine .pure hl ⟨fun σ => ?_, fun p _ hall => hall l mem_cons_self⟩
    rw [hpair, h.boolOf_unit]
    simp
  · obtain rfl := (env.same_iff l r).mp hsame
    refine .pure hl ⟨fun σ => ?_, fun p _ hall => hall l mem_cons_self⟩
    rw [hpair]
    simp
  · exact logicN_yields h (show [l, r].length ≤ maxArgs from two_le_maxArgs) (pair_wellFormed hl hr)

end Loops

/-- **`not_` returns the negation.** -/
theorem not_yields {P : Int → Prop} (he : WellFormed env e) :
    Fold.Yields P (env.not e) (WellFormed env) fun e' =>
      (∀ σ : Assignment, σ.boolOf e' = !σ.boolOf e) ∧
        ∀ p, ClosedLogic p → Everywhere p e → Everywhere p e' := by
  rw [ExprEnv.not]
  split_ifs with htrue hfal hnot
  · obtain rfl := (env.same_iff e _).mp htrue
    exact .pure wellFormed_boolFalse ⟨fun σ => by simp, fun p hp _ => hp.everywhere_false⟩
  · obtain rfl := (env.same_iff e _).mp hfal
    exact .pure wellFormed_boolTrue ⟨fun σ => by simp, fun p hp _ => hp.everywhere_true⟩
  · have hone : e.args.length = 1 := by
      cases he with
      | node hshape _ => exact hshape.negation hnot
    obtain ⟨a, ha⟩ := length_eq_one_iff.mp hone
    have hmem : a ∈ e.args := ha ▸ mem_cons_self
    rw [Expr.arg, ha]
    refine .pure (he.arg hmem) ⟨fun σ => ?_, fun p _ hall => hall.arg hmem⟩
    obtain ⟨op, flags, s, payload, args⟩ := e
    obtain rfl : op = .not := hnot
    obtain rfl : args = [a] := ha
    exact (Bool.not_not _).symm
  · have hwf : WellFormed env (.mk .not .isBoolean 0 0 [e]) := by
      refine .node
        { arity := le_trans (Nat.le_succ 1) two_le_maxArgs
          notFloat := by rintro ⟨⟩
          integer := by rintro ⟨⟩
          sum := by rintro ⟨⟩
          product := by rintro ⟨⟩
          quotient := by rintro (h | h) <;> cases h
          negation := fun _ => rfl
          choice := by rintro (h | h) <;> cases h } fun a ha => ?_
      rwa [mem_singleton.mp ha]
    refine .pure hwf ⟨fun σ => ?_, fun p hp hall => ?_⟩
    · rw [Assignment.boolOf, σ.eval_mk]
      rfl
    · refine .node (hp.truth .not [e] (by decide)) fun a ha => ?_
      rwa [mem_singleton.mp ha]

/-- **`where` returns the branch.** -/
theorem whereExpr_spec {cond a b : Expr} (hc : WellFormed env cond) (ha : WellFormed env a)
    (hb : WellFormed env b) :
    WellFormed env (env.whereExpr cond a b) ∧ (∀ σ : Assignment, σ.eval (env.whereExpr cond a b) =
        if σ.boolOf cond then σ.eval a else σ.eval b) ∧
      ∀ p, ClosedLogic p → Everywhere p cond → Everywhere p a → Everywhere p b →
        Everywhere p (env.whereExpr cond a b) := by
  rw [whereExpr]
  split_ifs with htrue hfal hsame
  · obtain rfl := (env.same_iff cond _).mp htrue
    exact ⟨ha, fun σ => by simp, fun p _ _ hpa _ => hpa⟩
  · obtain rfl := (env.same_iff cond _).mp hfal
    exact ⟨hb, fun σ => by simp, fun p _ _ _ hpb => hpb⟩
  · obtain rfl := (env.same_iff a b).mp hsame
    exact ⟨ha, fun σ => by simp, fun p _ _ hpa _ => hpa⟩
  · refine ⟨.plain (by decide) (Nat.le_of_ble_eq_true rfl) ?_, fun σ => ?_, ?_⟩
    · intro i hi
      simp only [mem_cons, not_mem_nil, or_false] at hi
      rcases hi with rfl | rfl | rfl <;> assumption
    · rw [σ.eval_mk]
      rfl
    · intro p hp hpc hpa hpb
      refine .node (hp.either cond a b hpa.here hpb.here) fun i hi => ?_
      simp only [mem_cons, not_mem_nil, or_false] at hi
      rcases hi with rfl | rfl | rfl <;> assumption

/-! ### Relations -/

/-- **A relation returns its truth value.** -/
theorem relation_spec {op : Op} {onSame : Bool} {holds : Int → Int → Bool} {operands : List Expr}
    {l r : Expr} (hop : op ∈ truthOps.drop 2) (hnot : op ≠ .not)
    (hperm : operands.Perm [l, r]) (hl : WellFormed env l) (hr : WellFormed env r)
    (hsame : ∀ x, holds x x = onSame)
    (hnode : ∀ σ : Assignment, σ.boolOf (.mk op .isBoolean 0 0 operands) =
      holds (σ.intOf l) (σ.intOf r)) :
    WellFormed env (env.relation op onSame holds operands l r) ∧
      (∀ σ : Assignment, σ.boolOf (env.relation op onSame holds operands l r) =
        holds (σ.intOf l) (σ.intOf r)) ∧
      ∀ p, ClosedLogic p → Everywhere p l → Everywhere p r →
        Everywhere p (env.relation op onSame holds operands l r) := by
  have htruth : ∀ b : Bool, WellFormed env (if b then .boolTrue else .boolFalse) ∧
      (∀ σ : Assignment, σ.boolOf (if b then .boolTrue else .boolFalse) = b) ∧
      ∀ p, ClosedLogic p → Everywhere p (if b then .boolTrue else .boolFalse) := by
    intro b
    cases b with
    | true => exact ⟨wellFormed_boolTrue, fun σ => σ.boolOf_boolTrue,
      fun p hp => hp.everywhere_true⟩
    | false =>
      exact ⟨wellFormed_boolFalse, fun σ => σ.boolOf_boolFalse, fun p hp => hp.everywhere_false⟩
  simp only [relation]
  by_cases heq : env.same l r = true
  · obtain rfl := (env.same_iff l r).mp heq
    rw [if_pos heq]
    obtain ⟨hwf, hval, hp⟩ := htruth onSame
    refine ⟨hwf, fun σ => ?_, fun p hc _ _ => hp p hc⟩
    rw [hval, hsame]
  · rw [if_neg heq]
    by_cases hints : l.op = .integer ∧ r.op = .integer
    · rw [if_pos hints]
      obtain ⟨hwf, hval, hp⟩ := htruth (holds l.payload r.payload)
      refine ⟨hwf, fun σ => ?_, fun p hc _ _ => hp p hc⟩
      rw [hval, σ.intOf_of_integer hints.1, σ.intOf_of_integer hints.2]
    · rw [if_neg hints]
      have hmem : ∀ i ∈ operands, i = l ∨ i = r := by
        intro i hi
        simpa using hperm.mem_iff.mp hi
      refine ⟨?_, hnode, fun p hc hpl hpr => .node (hc.truth op _ (mem_of_mem_drop hop)) ?_⟩
      · refine .plain ?_ (by rw [hperm.length_eq]; exact two_le_maxArgs) fun i hi => ?_
        · simp only [truthOps, drop_succ_cons, drop_zero, mem_cons, not_mem_nil, or_false] at hop
          rcases hop with rfl | rfl | rfl | rfl | rfl | rfl | rfl | rfl | rfl <;>
            first | decide | exact absurd rfl hnot
        · rcases hmem i hi with rfl | rfl <;> assumption
      · intro i hi
        rcases hmem i hi with rfl | rfl <;> assumption

end Logic

/-! ### Choices -/

section Choice
variable {env : ExprEnv} {P : Int → Prop}

/-- A value of the list that comes before all the others. -/
def Best (le : Int → Int → Prop) (v : Int) (l : List Int) : Prop := v ∈ l ∧ ∀ w ∈ l, le v w

/-- The two operations, with the order in which the chosen value comes first. -/
inductive Chooses : Op → (Int → Int → Prop) → Prop where
  | min : Chooses .min (· ≤ ·)
  | max : Chooses .max (· ≥ ·)

namespace Chooses
variable {op : Op} {le : Int → Int → Prop} (h : Chooses op le)
include h

theorem op_eq : op = .min ∨ op = .max := by
  cases h with
  | min => exact .inl rfl
  | max => exact .inr rfl

theorem trans {x y z : Int} (hxy : le x y) (hyz : le y z) : le x z := by
  cases h with
  | min => exact Int.le_trans hxy hyz
  | max => exact Int.le_trans hyz hxy

theorem antisymm {x y : Int} (hxy : le x y) (hyx : le y x) : x = y := by
  cases h with
  | min => exact Int.le_antisymm hxy hyx
  | max => exact Int.le_antisymm hyx hxy

theorem unique {v w : Int} {l : List Int} (hv : Best le v l) (hw : Best le w l) : v = w :=
  h.antisymm (hv.2 w hw.1) (hw.2 v hv.1)

theorem best_of_node (σ : Assignment) {e : Expr} (hop : e.op = op) (hargs : e.args ≠ []) :
    Best le (σ.intOf e) (e.args.map σ.intOf) := by
  obtain ⟨op', flags, s, payload, args⟩ := e
  obtain rfl : op' = op := hop
  have hne : args.map σ.intOf ≠ [] := fun hnil => hargs (map_eq_nil_iff.mp hnil)
  rw [Assignment.intOf, σ.eval_mk, Expr.args_mk]
  cases h with
  | min =>
    show Best _ ((((args.map σ.eval).map Value.int).min?).getD 0) _
    rw [σ.map_intOf]
    cases hmin : (args.map σ.intOf).min? with
    | none => exact absurd (min?_eq_none_iff.mp hmin) hne
    | some v => exact min?_eq_some_iff.mp hmin
  | max =>
    show Best _ ((((args.map σ.eval).map Value.int).max?).getD 0) _
    rw [σ.map_intOf]
    cases hmax : (args.map σ.intOf).max? with
    | none => exact absurd (max?_eq_none_iff.mp hmax) hne
    | some v => exact max?_eq_some_iff.mp hmax

theorem wellFormed_composite {args : List Expr} (hne : args ≠ []) (hlen : args.length ≤ maxArgs)
    (hargs : ∀ a ∈ args, WellFormed env a) : WellFormed env (.composite op args) := by
  refine .node ?_ hargs
  cases h <;> exact
    { arity := hlen
      notFloat := nofun
      integer := nofun
      sum := nofun
      product := nofun
      quotient := nofun
      negation := nofun
      choice := fun _ => hne }

/-- An operand of the operation may be taken apart. -/
theorem best_open {σ : Assignment} {e : Expr} (hop : e.op = op) (hargs : e.args ≠ []) {v : Int}
    {l l' : List Expr} (hbest : Best le v ((l ++ e :: l').map σ.intOf)) :
    Best le v ((l ++ e.args ++ l').map σ.intOf) := by
  have hnode := h.best_of_node σ hop hargs
  simp only [Best, mem_map, mem_append, mem_cons] at hbest hnode ⊢
  obtain ⟨⟨a, ha, hav⟩, hall⟩ := hbest
  obtain ⟨⟨b, hb, hbv⟩, hargs⟩ := hnode
  refine ⟨?_, ?_⟩
  · rcases ha with ha | rfl | ha
    · exact ⟨a, .inl (.inl ha), hav⟩
    · exact ⟨b, .inl (.inr hb), hbv.trans hav⟩
    · exact ⟨a, .inr ha, hav⟩
  · rintro w ⟨c, (hc | hc) | hc, rfl⟩
    · exact hall _ ⟨c, .inl hc, rfl⟩
    · exact h.trans (hall _ ⟨e, .inr (.inl rfl), rfl⟩) (hargs _ ⟨c, hc, rfl⟩)
    · exact hall _ ⟨c, .inr (.inr hc), rfl⟩

end Chooses

variable {le : Int → Int → Prop}

theorem WellFormed.choice_args {op : Op} (h : Chooses op le) {e : Expr}
    (he : WellFormed env e) (hop : e.op = op) : e.args ≠ [] := by
  cases he with
  | @node op' _ _ _ _ hshape _ =>
    obtain rfl : op' = op := hop
    exact hshape.choice h.op_eq

theorem flattenChoice_yields {op : Op} (h : Chooses op le)
    {l terms : List Expr} (hwf : ∀ e ∈ terms ++ l, WellFormed env e)
    (hroom : (terms ++ l).length ≤ maxArgs) :
    Fold.Yields P (flattenChoice op l terms)
      (fun out => (∀ t ∈ out, WellFormed env t) ∧ out.length ≤ maxArgs ∧
        (∀ (σ : Assignment) (v : Int), Best le v ((terms ++ l).map σ.intOf) →
          Best le v (out.map σ.intOf)) ∧
        ∀ p : Expr → Prop, (∀ i ∈ terms ++ l, Everywhere p i) → ∀ t ∈ out, Everywhere p t)
      fun _ => True := by
  induction l generalizing terms with
  | nil =>
    rw [append_nil] at hwf hroom ⊢
    exact .pure ⟨hwf, hroom, fun _ _ h => h, fun _ h => h⟩ trivial
  | cons e l ih =>
    rw [flattenChoice]
    split_ifs with hopen hfull
    · have hself : e ∈ terms ++ e :: l := mem_append_right _ mem_cons_self
      -- what holds of the operand and is handed down to its operands holds of them
      have hargs : ∀ q : Expr → Prop, (∀ a ∈ e.args, q e → q a) → (∀ i ∈ terms ++ e :: l, q i) →
          ∀ i ∈ terms ++ e.args ++ l, q i := by
        intro q hdown hq
        rw [forall_mem_append, forall_mem_cons] at hq
        exact forall_mem_append.mpr
          ⟨forall_mem_append.mpr ⟨hq.1, fun a ha => hdown a ha hq.2.1⟩, hq.2.2⟩
      have hfew : (terms ++ e.args ++ l).length ≤ maxArgs := by
        rw [length_append, length_append]
        exact hopen.2
      refine (ih (hargs _ (fun a ha he => he.arg ha) hwf) hfew).imp ?_ fun _ _ _ => trivial
      rintro out ⟨hout, hfew, hbest, hall⟩
      refine ⟨hout, hfew, fun σ v hv => hbest σ v ?_,
        fun p hp => hall p (hargs _ (fun a ha he => he.arg ha) hp)⟩
      exact h.best_open hopen.1 ((hwf e hself).choice_args h hopen.1) hv
    · rw [length_append, length_cons] at hroom
      omega
    · rw [append_cons terms e l] at hwf hroom ⊢
      exact ih hwf hroom

theorem mem_dropRepeats {last e : Expr} {l : List Expr} :
    e ∈ last :: env.dropRepeats last l ↔ e ∈ last :: l := by
  induction l generalizing last with
  | nil => rfl
  | cons a l ih =>
    rw [dropRepeats]
    by_cases hsame : env.same a last = true
    · obtain rfl := (env.same_iff a last).mp hsame
      rw [if_pos hsame, ih]
      simp
    · rw [if_neg hsame, mem_cons, ih, ← mem_cons]

theorem length_dropRepeats (env : ExprEnv) (last : Expr) (l : List Expr) :
    (env.dropRepeats last l).length ≤ l.length := by
  induction l generalizing last with
  | nil => exact le_rfl
  | cons a l ih =>
    rw [dropRepeats]
    split
    · exact Nat.le_succ_of_le (ih last)
    · exact Nat.succ_le_succ (ih a)

/-- **`min_n` and `max_n`.** -/
theorem choiceN_yields {op : Op} (h : Chooses op le) {inputs : List Expr}
    (hne : inputs ≠ []) (hlen : inputs.length ≤ maxArgs)
    (hwf : ∀ i ∈ inputs, WellFormed env i) :
    Fold.Yields P (env.choiceN op inputs) (WellFormed env) fun e =>
      (∀ (σ : Assignment) (v : Int), Best le v (inputs.map σ.intOf) → σ.intOf e = v) ∧
        ∀ p, ClosedLogic p → (∀ i ∈ inputs, Everywhere p i) → Everywhere p e := by
  have hno : ¬ (inputs = [] ∨ maxArgs < inputs.length) := by
    rintro (hnil | hlong)
    · exact hne hnil
    · omega
  rw [choiceN, if_neg hno]
  refine (flattenChoice_yields h (show ∀ e ∈ [] ++ inputs, WellFormed env e from hwf)
    (by simpa using hlen)).bind fun terms hter => ?_
  obtain ⟨hwft, hfew, hbest, hall⟩ := hter
  have hperm := env.sorted_perm terms
  have hmem : ∀ t, t ∈ env.sorted terms ↔ t ∈ terms := fun t => hperm.mem_iff
  have hlens := hperm.length_eq
  generalize env.sorted terms = sorted at hmem hlens ⊢
  match sorted with
  | [] =>
    have hnil : terms = [] := length_eq_zero_iff.mp hlens.symm
    exfalso
    -- the operands have a best value, and so have the terms
    obtain ⟨v, hv⟩ : ∃ v, Best le v (inputs.map (⟨fun _ => 0, fun _ => false,
        fun _ _ => ⟨0, false⟩⟩ : Assignment).intOf) := by
      have hnode := h.best_of_node ⟨fun _ => 0, fun _ => false, fun _ _ => ⟨0, false⟩⟩
        (e := .mk op 0 0 0 inputs) rfl hne
      exact ⟨_, hnode⟩
    have := hbest _ v hv
    rw [hnil] at this
    exact nomatch this.1
  | e :: rest =>
    have hsame : ∀ t, t ∈ e :: env.dropRepeats e rest ↔ t ∈ terms :=
      fun t => mem_dropRepeats.trans (hmem t)
    have hlen' := length_dropRepeats env e rest
    rw [length_cons] at hlens
    have hset : ∀ (σ : Assignment) (v : Int), Best le v (terms.map σ.intOf) →
        Best le v ((e :: env.dropRepeats e rest).map σ.intOf) := by
      intro σ v hv
      simp only [Best, mem_map] at hv ⊢
      simp only [hsame]
      exact hv
    dsimp only
    generalize env.dropRepeats e rest = kept at hsame hlen' hset ⊢
    match kept with
    | [] =>
      have hin := (hsame e).mp mem_cons_self
      refine .pure (hwft e hin) fun _ => ⟨fun σ v hv => ?_, fun p _ hp => hall p hp e hin⟩
      exact (mem_singleton.mp (hset σ v (hbest σ v hv)).1).symm
    | a :: l =>
      rw [length_cons] at hlen'
      simp only [length_cons]
      rw [if_neg (by omega)]
      have hwfn : WellFormed env (.composite op (e :: a :: l)) := by
        refine h.wellFormed_composite (by simp) (by simp only [length_cons]; omega) ?_
        exact fun t ht => hwft t ((hsame t).mp ht)
      refine .pure hwfn fun _ => ⟨fun σ v hv => ?_, fun p hp hin => ?_⟩
      · refine h.unique (h.best_of_node σ (e := .composite op (e :: a :: l)) rfl
          (by simp [Expr.composite])) ?_
        exact hset σ v (hbest σ v hv)
      · refine .composite (hp.choice op _ h.op_eq) fun t ht => ?_
        exact hall p hin t ((hsame t).mp ht)

end Choice
end Crucible
