import Crucible.SumsAndProducts

/-! # The ring constructors

`mul_n`, `add_n`, `mul`, `add`, `neg` and `pow` return a node whose value is that of the
operation, unless a fold saturates.  The node is of the right shape, and no heavier than the
operands.  A property that holds of every node of the operands, of sums and products, and of
the integers that folds give holds of every node of the result.
-/
namespace Crucible
open List ExprEnv
open Saturating

namespace ExprEnv
variable (env : ExprEnv)

instance : Std.Total fun a b : Expr => env.addr a ≤ env.addr b :=
  ⟨fun a b => le_total (env.addr a) (env.addr b)⟩

instance : IsTrans Expr fun a b => env.addr a ≤ env.addr b := ⟨fun _ _ _ => le_trans⟩

theorem sorted_perm (l : List Expr) : (env.sorted l).Perm l := perm_insertionSort _ l

theorem sorted_pairwise (l : List Expr) :
    (env.sorted l).Pairwise fun a b => env.addr a ≤ env.addr b :=
  pairwise_insertionSort _ l

theorem ordered_eq (l r : Expr) : env.ordered l r = env.sorted [l, r] := by
  rw [ordered, sorted, insertionSort_cons, insertionSort_cons, insertionSort_nil,
    orderedInsert_nil, orderedInsert]
  by_cases h : env.addr l ≤ env.addr r
  · rw [if_neg (by omega), if_pos h]
  · rw [if_pos (by omega), if_neg h]
    rfl

@[simp] theorem same_iff (e e' : Expr) : env.same e e' = true ↔ e = e' := by
  rw [same, decide_eq_true_iff]
  exact env.addr_inj.eq_iff

end ExprEnv

/-- A property of nodes that sums, products, powers and the integers of folds have. -/
structure Closed (P : Int → Prop) (p : Expr → Prop) : Prop where
  composite : ∀ op args, op = .add ∨ op = .mul → p (.composite op args)
  power : ∀ args, p (.composite .pow args)
  integer : ∀ v, P v → p (.integer v)
  small : ∀ v : Int, -1 ≤ v → v ≤ 2 → p (.integer v)

theorem Closed.zero {P : Int → Prop} {p : Expr → Prop} (h : Closed P p) : p (.integer 0) :=
  h.small 0 (by decide) (by decide)

theorem Closed.one {P : Int → Prop} {p : Expr → Prop} (h : Closed P p) : p (.integer 1) :=
  h.small 1 (by decide) (by decide)

/-- An expression that combines the given ones. -/
structure Combination (env : ExprEnv) (comb : Int → Int → Int) (unit : Int) (terms : List Expr)
    (e : Expr) : Prop where
  wellFormed : WellFormed env e
  weight_eq : weight e = weightAll terms
  value : ∀ σ : Assignment, σ.intOf e = total comb unit (terms.map σ.intOf)
  notInteger : (∃ t ∈ terms, t.op ≠ .integer) → e.op ≠ .integer
  everywhere : ∀ p : Expr → Prop, (∀ op args, op = .add ∨ op = .mul → p (.composite op args)) →
    (∀ t ∈ terms, Everywhere p t) → Everywhere p e

theorem two_le_maxArgs : 2 ≤ maxArgs := by decide

theorem weightAll_pair (l r : Expr) : weightAll [l, r] = weight l + weight r := rfl

section Ends
variable {env : ExprEnv} {op : Op} {unit : Int} {comb : Int → Int → Int}

variable {terms : List Expr}

theorem Combination.node (h : Combines op unit comb)
    (hlen : terms.length ≤ maxArgs) (htwo : 2 ≤ terms.length)
    (hwf : ∀ t ∈ terms, WellFormed env t) (hone : (integersOf terms).length ≤ 1)
    (hne : ∀ v ∈ integersOf terms, v ≠ 0 ∧ v ≠ unit) :
    Combination env comb unit terms (.composite op (env.sorted terms)) := by
  have hperm := env.sorted_perm terms
  have hints := integersOf_perm hperm
  have hop : (Expr.composite op (env.sorted terms)).op = op := rfl
  have hargs : (Expr.composite op (env.sorted terms)).args = env.sorted terms := rfl
  refine ⟨h.composite ⟨?_, env.sorted_pairwise terms, ?_, ?_⟩ ?_ ?_, ?_, ?_, ?_, ?_⟩
  · rw [hperm.length_eq]
    exact htwo
  · rw [hints.length_eq]
    exact hone
  · intro v hv
    exact hne v (hints.mem_iff.mp hv)
  · rw [hperm.length_eq]
    exact hlen
  · intro a ha
    exact hwf a (hperm.mem_iff.mp ha)
  · rw [h.weight_eq hop, hargs, weightAll_perm hperm]
  · intro σ
    rw [h.intOf_eq σ hop, hargs, h.total_perm (hperm.map _)]
  · intro _
    exact h.ne_integer
  · intro p hp hall
    refine .composite (hp op _ h.op_eq) fun a ha => ?_
    exact hall a (hperm.mem_iff.mp ha)

theorem intern_spec (h : Combines op unit comb) (hnil : terms ≠ [])
    (hlen : terms.length ≤ maxArgs) (hwf : ∀ t ∈ terms, WellFormed env t)
    (hone : (integersOf terms).length ≤ 1)
    (hne : 2 ≤ terms.length → ∀ v ∈ integersOf terms, v ≠ 0 ∧ v ≠ unit) :
    ∃ e, env.intern op terms = pure e ∧ Combination env comb unit terms e := by
  match terms, hnil with
  | [e], _ =>
    refine ⟨e, rfl, hwf e mem_cons_self, rfl, fun σ => (h.comb_unit _).symm, ?_, ?_⟩
    · rintro ⟨t, ht, hop⟩
      obtain rfl := mem_singleton.mp ht
      exact hop
    · exact fun p _ hall => hall e mem_cons_self
  | a :: b :: l, _ =>
    refine ⟨_, if_neg (by omega), .node h hlen ?_ hwf hone (hne ?_)⟩ <;>
      exact Nat.le_add_left 2 l.length

theorem Combination.nest (h : Combines op unit comb) {x inner e : Expr}
    (hinn : Combination env comb unit terms inner)
    (hout : Combination env comb unit [inner, x] e) :
    Combination env comb unit (terms ++ [x]) e where
  wellFormed := hout.wellFormed
  weight_eq := by
    rw [hout.weight_eq, weightAll_append, weightAll_pair, hinn.weight_eq]
    rfl
  value σ := by
    rw [hout.value, map_append, h.total_append, ← hinn.value]
    rfl
  notInteger := by
    rintro ⟨t, ht, hop⟩
    rcases mem_append.mp ht with ht | ht
    · exact hout.notInteger ⟨inner, mem_cons_self, hinn.notInteger ⟨t, ht, hop⟩⟩
    · exact hout.notInteger ⟨t, mem_cons_of_mem _ ht, hop⟩
  everywhere p hp hall := by
    rw [forall_mem_append] at hall
    exact hout.everywhere p hp (forall_mem_cons.mpr
      ⟨hinn.everywhere p hp hall.1, hall.2⟩)

theorem reattach_constant (env : ExprEnv) (h : Combines op unit comb) {c : Int}
    (hlen : terms.length ≤ maxArgs) (hwf : ∀ t ∈ terms, WellFormed env t)
    (hop : ∀ t ∈ terms, t.op ≠ .integer) (hc : InRange c) (hput : c ≠ unit ∨ terms = [])
    (hzero : c ≠ unit → c ≠ 0) :
    ∃ e, env.reattach op unit terms c = pure e ∧
      Combination env comb unit (terms ++ [.integer c]) e := by
  have hints : integersOf terms = [] := integersOf_eq_nil hop
  have hone : terms ≠ [] → ∀ v ∈ [c], v ≠ 0 ∧ v ≠ unit := by
    intro hnil
    have hunit : c ≠ unit := hput.resolve_right hnil
    exact forall_mem_singleton.mpr ⟨hzero hunit, hunit⟩
  rw [reattach, if_pos hput]
  by_cases hfull : terms.length = maxArgs
  · rw [if_pos hfull]
    have hnil : terms ≠ [] := by
      rintro rfl
      cases hfull
    have hinn : Combination env comb unit terms (.composite op (env.sorted terms)) := by
      refine .node h hlen (by rw [hfull]; decide) hwf (by rw [hints]; exact zero_le) ?_
      rw [hints]
      rintro _ ⟨⟩
    have hpair : integersOf [.composite op (env.sorted terms), .integer c] = [c] := by
      rw [integersOf_cons_other (e := .composite op (env.sorted terms)) h.ne_integer]
      rfl
    refine ⟨_, rfl, hinn.nest h ?_⟩
    rw [nestFoldedConstant, env.ordered_eq]
    refine .node h two_le_maxArgs le_rfl ?_ ?_ ?_
    · exact forall_mem_cons.mpr
        ⟨hinn.wellFormed, forall_mem_singleton.mpr (.integer hc)⟩
    · rw [hpair]
      exact le_rfl
    · rw [hpair]
      exact hone hnil
  · rw [if_neg hfull]
    have hlast : integersOf (terms ++ [.integer c]) = [c] := by
      rw [integersOf_append, hints]
      rfl
    have hlen' : (terms ++ [Expr.integer c]).length = terms.length + 1 := length_append
    refine intern_spec h (by simp) (by omega) ?_ (by rw [hlast]; exact le_rfl) fun htwo => ?_
    · exact forall_mem_append.mpr ⟨hwf, forall_mem_singleton.mpr (.integer hc)⟩
    · rw [hlast]
      refine hone ?_
      rintro rfl
      exact Nat.not_succ_le_self 1 htwo

theorem reattach_spec (env : ExprEnv) (h : Combines op unit comb) {c : Int}
    (hlen : terms.length ≤ maxArgs) (hwf : ∀ t ∈ terms, WellFormed env t)
    (hop : ∀ t ∈ terms, t.op ≠ .integer) (hc : InRange c) (hzero : c ≠ unit → c ≠ 0) :
    ∃ e, env.reattach op unit terms c = pure e ∧ WellFormed env e ∧
      weight e ≤ max 1 (weightAll terms + cost unit c) ∧
      (∀ σ : Assignment, σ.intOf e = comb (total comb unit (terms.map σ.intOf)) c) ∧
      (terms ≠ [] → e.op ≠ .integer) ∧
      ∀ p : Expr → Prop, (∀ op args, op = .add ∨ op = .mul → p (.composite op args)) →
        p (.integer c) → (∀ t ∈ terms, Everywhere p t) → Everywhere p e := by
  have hoth : terms ≠ [] → ∃ t ∈ terms, t.op ≠ .integer := by
    intro hnil
    obtain ⟨t, ht⟩ := exists_mem_of_ne_nil terms hnil
    exact ⟨t, ht, hop t ht⟩
  by_cases hput : c ≠ unit ∨ terms = []
  · obtain ⟨e, heq, he⟩ := reattach_constant env h hlen hwf hop hc hput hzero
    refine ⟨e, heq, he.wellFormed, ?_, fun σ => ?_, fun hnil => he.notInteger ?_, ?_⟩
    · rw [he.weight_eq, weightAll_append]
      show weightAll terms + bits c ≤ _
      by_cases hunit : c = unit
      · have hnil : terms = [] := hput.resolve_left (fun hne => hne hunit)
        have hbits : bits c = 1 := by
          rw [hunit]
          cases h <;> decide
        rw [hnil, hbits]
        exact le_max_left _ _
      · rw [cost, if_neg hunit]
        exact le_max_right _ _
    · rw [he.value, map_append, h.total_append]
      congr 1
      show comb (σ.intOf (.integer c)) unit = c
      rw [h.comb_unit, σ.intOf_integer]
    · obtain ⟨t, ht, hoth⟩ := hoth hnil
      exact ⟨t, mem_append_left _ ht, hoth⟩
    · exact fun p hp hpc hall => he.everywhere p hp (forall_mem_append.mpr
        ⟨hall, forall_mem_singleton.mpr (.integer hpc)⟩)
  · rw [reattach, if_neg hput]
    have hints : integersOf terms = [] := integersOf_eq_nil hop
    obtain ⟨hunit, hnil⟩ := not_or.mp hput
    obtain rfl := not_not.mp hunit
    obtain ⟨e, heq, he⟩ : ∃ e, env.intern op terms = pure e ∧ Combination env comb c terms e :=
      intern_spec h hnil hlen hwf (by rw [hints]; exact zero_le) (by rw [hints]; rintro _ _ ⟨⟩)
    refine ⟨e, heq, he.wellFormed, ?_, fun σ => ?_, fun hnil => he.notInteger (hoth hnil),
      fun p hp _ hall => he.everywhere p hp hall⟩
    · rw [he.weight_eq, cost, if_pos rfl]
      exact le_max_right _ _
    · rw [he.value, h.comb_unit]

end Ends

/-! ### Products -/

theorem Operands.exists_other {env : ExprEnv} {unit : Int} {args : List Expr}
    (h : Operands env unit args) : ∃ a ∈ args, a.op ≠ .integer := by
  by_contra hno
  have hall : ∀ a ∈ args, a.op = .integer := by
    intro a ha
    by_contra hop
    exact hno ⟨a, ha, hop⟩
  have hlen : (integersOf args).length = args.length := by
    rw [integersOf, length_map, filter_eq_self.mpr fun a ha => decide_eq_true (hall a ha)]
  have htwo := h.two_le
  have hone := h.one_integer
  omega

section Pieces
variable {env : ExprEnv} {op : Op} {unit : Int} {comb : Int → Int → Int}

variable {l terms : List Expr}

theorem opened_wellFormed (hwf : ∀ e ∈ l, WellFormed env e) {n : Nat} {a : Expr}
    (h : a ∈ opened op n l) : WellFormed env a := by
  rcases mem_opened h with ha | ⟨e, he, -, ha⟩
  · exact hwf a ha
  · exact (hwf e he).arg ha

theorem opened_everywhere {p : Expr → Prop} (hp : ∀ e ∈ l, Everywhere p e)
    {n : Nat} {a : Expr} (h : a ∈ opened op n l) : Everywhere p a := by
  rcases mem_opened h with ha | ⟨e, he, -, ha⟩
  · exact hp a ha
  · exact (hp e he).arg ha

section
variable (h : Combines op unit comb)
include h

theorem Combines.total_opened (σ : Assignment) (n : Nat) (l : List Expr) :
    total comb unit ((opened op n l).map σ.intOf) = total comb unit (l.map σ.intOf) := by
  refine opened_keeps (f := fun l => total comb unit (l.map σ.intOf)) (m := comb) ?_ ?_ n
  · intro l l'
    rw [map_append, h.total_append]
  · intro e _ hop
    rw [← h.intOf_eq σ hop]
    exact (h.comb_unit _).symm

theorem Combines.weightAll_opened (n : Nat) (l : List Expr) :
    weightAll (opened op n l) = weightAll l := by
  refine opened_keeps (m := (· + ·)) weightAll_append ?_ n
  intro e _ hop
  rw [← h.weight_eq hop]
  rfl

theorem Combines.exists_other_opened
    (hwf : ∀ e ∈ l, WellFormed env e) (hoth : ∃ e ∈ l, e.op ≠ .integer) (n : Nat) :
    nonIntegers (opened op n l) ≠ [] := by
  have hkeep : (∃ a ∈ opened op n l, a.op ≠ .integer) = ∃ e ∈ l, e.op ≠ .integer := by
    refine opened_keeps (f := fun l => ∃ a ∈ l, a.op ≠ .integer) (m := Or) ?_ ?_ n
    · intro l l'
      simp only [mem_append, or_and_right, exists_or]
    · intro e he hop
      have hargs := (h.operands (hwf e he) hop).exists_other
      have hself : ∃ a ∈ [e], a.op ≠ .integer := ⟨e, mem_cons_self, hop ▸ h.ne_integer⟩
      exact propext ⟨fun _ => hself, fun _ => hargs⟩
  obtain ⟨a, ha, hop⟩ := hkeep.mpr hoth
  exact ne_nil_of_mem (mem_nonIntegers.mpr ⟨ha, hop⟩)

theorem Combines.gathered_value {P : Int → Prop}
    {c : Int} (hgat : Gathered unit (opened op 0 l) ([], unit) (terms, c))
    (hexact : Exactly comb P (opened op 0 l) ([], unit) (terms, c)) (σ : Assignment) :
    comb (total comb unit (terms.map σ.intOf)) c = total comb unit (l.map σ.intOf) := by
  have hter : terms = nonIntegers (opened op 0 l) := hgat.terms
  have hcon : c = (integersOf (opened op 0 l)).foldl comb unit := hexact.constant
  rw [h.foldl_eq, h.unit_comb] at hcon
  rw [hter, hcon, ← h.total_split, h.total_opened]

theorem Combines.gathered_weight {c : Int}
    (hgat : Gathered unit (opened op 0 l) ([], unit) (terms, c)) :
    weightAll terms + cost unit c ≤ weightAll l := by
  have hter : terms = nonIntegers (opened op 0 l) := hgat.terms
  have hcost : cost unit c ≤ cost unit unit + ((integersOf (opened op 0 l)).map bits).sum :=
    hgat.cost_le
  have hspl := weightAll_split (opened op 0 l)
  rw [h.weightAll_opened, ← hter] at hspl
  rw [show cost unit unit = 0 from if_pos rfl] at hcost
  omega

theorem Exactly.closed {P : Int → Prop} {p : Expr → Prop} {c : Int}
    (hexact : Exactly comb P l ([], unit) (terms, c)) (hp : Closed P p) : p (.integer c) := by
  rcases hexact.folded with hunit | hfold
  · obtain rfl : c = unit := hunit
    cases h with
    | add => exact hp.zero
    | mul => exact hp.one
  · exact hp.integer c hfold

end

theorem Gathered.mem_terms {c : Int} {t : Expr}
    (hgat : Gathered unit (opened op 0 l) ([], unit) (terms, c)) (ht : t ∈ terms) :
    t ∈ opened op 0 l ∧ t.op ≠ .integer := by
  have hter : terms = nonIntegers (opened op 0 l) := hgat.terms
  rw [hter] at ht
  exact mem_nonIntegers.mp ht

end Pieces

section Constructors
variable {env : ExprEnv} {P : Int → Prop}

/-- A constructor of integers from the given operands: what it returns has the right shape and
at most the weight `w`; if the folds are exact then it has the value and the properties. -/
def Computes (env : ExprEnv) (P : Int → Prop) (inputs : List Expr) (w : Nat)
    (value : Assignment → Int) (x : Building Expr) : Prop :=
  Fold.Yields P x (fun e => WellFormed env e ∧ weight e ≤ w) fun e =>
    (∀ σ : Assignment, σ.intOf e = value σ) ∧
      ∀ p, Closed P p → (∀ i ∈ inputs, Everywhere p i) → Everywhere p e

variable {inputs terms : List Expr}

theorem mulN_yields (hP : ∀ v, P v → InRange v)
    (hlen : inputs.length ≤ maxArgs) (hwf : ∀ i ∈ inputs, WellFormed env i) :
    Fold.Yields P (env.mulN inputs)
      (fun e => (WellFormed env e ∧ weight e ≤ max 1 (weightAll inputs)) ∧
        ((∃ i ∈ inputs, i.op ≠ .integer) → (∀ v ∈ integersOf inputs, v ≠ 0) → e.op ≠ .integer))
      fun e => (∀ σ : Assignment, σ.intOf e = (inputs.map σ.intOf).prod) ∧
        ∀ p, Closed P p → (∀ i ∈ inputs, Everywhere p i) → Everywhere p e := by
  have h := Combines.mul
  rw [mulN, if_neg (by omega)]
  refine (flatten_yields h hP (fun _ _ => rfl) inputs ([], 1) (by simpa using hlen)).bind ?_
  rintro ⟨terms, c⟩ ⟨hgat, hfew⟩
  have hnon : (∀ v ∈ integersOf inputs, v ≠ 0) → c ≠ 0 := by
    intro hall
    refine hgat.nonzero rfl (by decide) fun v hv => ?_
    obtain ⟨e, he, hop, rfl⟩ := mem_integersOf.mp hv
    rcases mem_opened he with he | ⟨e', he', hop', he⟩
    · exact hall _ (mem_integersOf.mpr ⟨e, he, hop, rfl⟩)
    · have hoper := (hwf e' he').product_eq hop'
      exact (hoper.2.integer_ne _ (mem_integersOf.mpr ⟨e, he, hop, rfl⟩)).1
  by_cases hc : c = 0
  · simp only [if_pos hc]
    refine .pure ⟨⟨.integer (by decide), le_max_left 1 _⟩, ?_⟩ ?_
    · intro _ hall
      exact absurd hc (hnon hall)
    · intro hexact
      refine ⟨fun σ => ?_, fun p hp _ => .integer hp.zero⟩
      have hvalue := h.gathered_value hgat hexact σ
      rw [hc] at hvalue
      rw [σ.intOf_integer, ← total_mul, ← hvalue]
      exact (Int.mul_zero _).symm
  · simp only [if_neg hc]
    obtain ⟨e, heq, hwfe, hweig, hval, hnot, hall⟩ := reattach_spec env h hfew
      (fun t ht => opened_wellFormed hwf (hgat.mem_terms ht).1)
      (fun t ht => (hgat.mem_terms ht).2) (hgat.range (by decide)) fun _ => hc
    rw [heq]
    refine .pure ⟨⟨hwfe, hweig.trans ?_⟩, ?_⟩ ?_
    · exact max_le_max (Nat.le_refl 1) (h.gathered_weight hgat)
    · intro hoth _
      apply hnot
      rw [show terms = nonIntegers (opened .mul 0 inputs) from hgat.terms]
      exact h.exists_other_opened hwf hoth 0
    · intro hexact
      refine ⟨fun σ => ?_, fun p hp hall' => hall p hp.composite ?_ ?_⟩
      · rw [hval, h.gathered_value hgat hexact σ]
        rfl
      · exact hexact.closed h hp
      · intro t ht
        exact opened_everywhere hall' (hgat.mem_terms ht).1

theorem mulN_computes (hP : ∀ v, P v → InRange v)
    (hlen : inputs.length ≤ maxArgs) (hwf : ∀ i ∈ inputs, WellFormed env i) :
    Computes env P inputs (max 1 (weightAll inputs)) (fun σ => (inputs.map σ.intOf).prod)
      (env.mulN inputs) :=
  (mulN_yields hP hlen hwf).imp (fun _ h => h.1) fun _ _ h => h

/-! ### The terms of a sum -/

/-- A term of a sum is a coefficient and a base. -/
structure Decomposes (env : ExprEnv) (e : Expr) (t : Int × Expr) : Prop where
  wellFormed : WellFormed env t.2
  notInteger : t.2.op ≠ .integer
  range : InRange t.1
  value : ∀ σ : Assignment, σ.intOf e = t.1 * σ.intOf t.2
  weight_eq : weight e = cost 1 t.1 + weight t.2
  everywhere : ∀ p : Expr → Prop, (∀ op args, op = .add ∨ op = .mul → p (.composite op args)) →
    p (.integer 1) → Everywhere p e → Everywhere p t.2 ∧ p (.integer t.1)

/-- The coefficient and the base of a term. -/
def termOf (e : Expr) : Int × Expr :=
  ((ExprEnv.decompose e).1, (ExprEnv.decompose e).2.getD e)

theorem combinedCoefficient_eq (e : Expr) :
    combinedCoefficient e = (integersOf e.args).foldl (fun _ v => v) 1 := by
  have hloop : ∀ (l : List Expr) (c : Int),
      l.foldl (fun c a => if a.op = .integer then a.payload else c) c =
        (integersOf l).foldl (fun _ v => v) c := by
    intro l
    induction l with
    | nil => exact fun _ => rfl
    | cons a l ih =>
      intro c
      rw [foldl_cons, ih]
      by_cases hop : a.op = .integer
      · rw [if_pos hop, integersOf_cons_integer hop, foldl_cons]
      · rw [if_neg hop, integersOf_cons_other hop]
  exact hloop e.args 1

variable {e b l r : Expr}

theorem pair_wellFormed (hl : WellFormed env l) (hr : WellFormed env r) :
    ∀ i ∈ [l, r], WellFormed env i :=
  forall_mem_cons.mpr ⟨hl, forall_mem_singleton.mpr hr⟩

theorem WellFormed.product_cases (hwf : WellFormed env e) (hop : e.op = .mul) :
    (∃ a ∈ e.args, a = .integer (combinedCoefficient e) ∧
        integersOf e.args = [combinedCoefficient e] ∧
        combinedCoefficient e ≠ 1 ∧ InRange (combinedCoefficient e)) ∨
      (combinedCoefficient e = 1 ∧ integersOf e.args = []) := by
  have hoper := (hwf.product_eq hop).2
  have hone := hoper.one_integer
  rw [combinedCoefficient_eq]
  match hints : integersOf e.args with
  | [] => exact .inr ⟨rfl, rfl⟩
  | [v] =>
    obtain ⟨a, ha, hint, rfl⟩ := mem_integersOf.mp (hints ▸ mem_cons_self : v ∈ integersOf e.args)
    have hne := hoper.integer_ne a.payload (hints ▸ mem_cons_self)
    obtain ⟨heq, hran⟩ := (hwf.arg ha).integer_eq hint
    exact .inl ⟨a, ha, heq, rfl, hne.2, hran⟩
  | v :: w :: l =>
    rw [hints] at hone
    exact absurd hone (by simp)

theorem WellFormed.product_base (hwf : WellFormed env e) (hop : e.op = .mul) :
    ∃ base, decompose e = (combinedCoefficient e, some base) ∧
      Combination env (· * ·) 1 (nonIntegers e.args) base := by
  have hoper := (hwf.product_eq hop).2
  obtain ⟨a, ha, hoth⟩ := hoper.exists_other
  have hmem : a ∈ nonIntegers e.args := mem_nonIntegers.mpr ⟨ha, hoth⟩
  have hnone : integersOf (nonIntegers e.args) = [] :=
    integersOf_eq_nil fun f hf => (mem_nonIntegers.mp hf).2
  have hlen : (nonIntegers e.args).length ≤ maxArgs :=
    le_trans (length_filter_le _ _) hwf.arity
  obtain ⟨base, hint, hcomb⟩ := intern_spec .mul (ne_nil_of_mem hmem) hlen
    (fun f hf => hwf.arg (mem_nonIntegers.mp hf).1) (by rw [hnone]; exact zero_le)
    (by rw [hnone]; rintro _ _ ⟨⟩)
  have hsor : env.sorted (nonIntegers e.args) = nonIntegers e.args :=
    (hoper.sorted.filter _).insertionSort_eq
  refine ⟨base, ?_, hcomb⟩
  rw [decompose, if_pos hop, show mulFactors e = nonIntegers e.args from rfl]
  generalize nonIntegers e.args = factors at hmem hlen hint hsor
  match factors with
  | [] => cases hmem
  | [b] =>
    cases hint
    rfl
  | b :: b' :: l =>
    rw [show env.intern .mul (b :: b' :: l) = _ from if_neg (by omega), hsor] at hint
    cases hint
    rfl

theorem decompose_spec (hwf : WellFormed env e) (hop : e.op ≠ .integer) :
    decompose e = ((termOf e).1, some (termOf e).2) ∧ Decomposes env e (termOf e) := by
  by_cases hmul : e.op = .mul
  · obtain ⟨base, hdec, hbase⟩ := hwf.product_base hmul
    have hterm : termOf e = (combinedCoefficient e, base) := by
      rw [termOf, hdec]
      rfl
    -- the coefficient stands for the integer factor, if there is one
    obtain ⟨hprod, hcost, hran, hpc⟩ : (integersOf e.args).prod = combinedCoefficient e ∧
        ((integersOf e.args).map bits).sum = cost 1 (combinedCoefficient e) ∧
        InRange (combinedCoefficient e) ∧
        ∀ p : Expr → Prop, p (.integer 1) → Everywhere p e →
          p (.integer (combinedCoefficient e)) := by
      rcases hwf.product_cases hmul with ⟨a, ha, heq, hints, hne, hran⟩ | ⟨hone, hints⟩
      · refine ⟨by rw [hints, prod_singleton], ?_, hran, ?_⟩
        · rw [hints, cost, if_neg hne]
          rfl
        · intro p _ hall
          rw [← heq]
          exact (hall.arg ha).here
      · refine ⟨by rw [hints, hone]; rfl, by rw [hints, hone]; rfl, by rw [hone]; decide, ?_⟩
        intro p hp _
        rw [hone]
        exact hp
    obtain ⟨a, ha, hoth⟩ := (hwf.product_eq hmul).2.exists_other
    rw [hterm, hdec]
    refine ⟨rfl, hbase.wellFormed,
      hbase.notInteger ⟨a, mem_nonIntegers.mpr ⟨ha, hoth⟩, hoth⟩, hran, fun σ => ?_, ?_, ?_⟩
    · rw [Combines.mul.intOf_eq σ hmul, Combines.mul.total_split, ← hbase.value, total_mul, hprod,
        Int.mul_comm]
    · rw [Combines.mul.weight_eq hmul, weightAll_split, hcost, hbase.weight_eq, add_comm]
    · intro p hpnode hp hall
      exact ⟨hbase.everywhere p hpnode fun f hf => hall.arg (mem_nonIntegers.mp hf).1,
        hpc p hp hall⟩
  · have hdec : decompose e = (1, some e) := by rw [decompose, if_neg hmul]
    have hterm : termOf e = (1, e) := by
      rw [termOf, hdec]
      rfl
    rw [hterm, hdec]
    refine ⟨rfl, hwf, hop, (by decide : InRange 1), fun σ => (Int.one_mul _).symm, ?_, ?_⟩
    · exact (zero_add _).symm
    · exact fun p _ hp hall => ⟨hall, hp⟩

theorem decomposeTerms_eq (hwf : ∀ t ∈ terms, WellFormed env t)
    (hop : ∀ t ∈ terms, t.op ≠ .integer) (s : List (Int × Expr) × Int) :
    decomposeTerms terms s = pure (s.1 ++ terms.map termOf, s.2) := by
  induction terms generalizing s with
  | nil =>
    rw [decomposeTerms, map_nil, append_nil]
  | cons e terms ih =>
    have hdec := (decompose_spec (hwf e mem_cons_self) (hop e mem_cons_self)).1
    have hnext := ih (fun t ht => hwf t (mem_cons_of_mem _ ht))
      (fun t ht => hop t (mem_cons_of_mem _ ht)) (s.1 ++ [termOf e], s.2)
    simp only [decomposeTerms, hdec]
    rw [hnext, map_cons, append_assoc]
    rfl

/-! ### Collecting -/

def termWeight (t : Int × Expr) : Nat := cost 1 t.1 + weight t.2

theorem cost_add_le {x y : Int} (hb : 2 ≤ weight b) :
    cost 1 (clamp (x + y)) ≤ cost 1 x + cost 1 y + weight b := by
  have hbits : ∀ v : Int, bits v ≤ cost 1 v + 1 := by
    intro v
    rw [cost]
    split
    case isTrue hv =>
      rw [hv]
      decide
    case isFalse => exact Nat.le_succ _
  have hx := hbits x
  have hy := hbits y
  have hsum := bits_add_le x y
  have hclamp := bits_mono (natAbs_clamp_le (x + y))
  have hcost := cost_le_bits 1 (clamp (x + y))
  omega

def Terms (env : ExprEnv) (terms : List Expr) : Prop :=
  ∀ t ∈ terms, WellFormed env t ∧ t.op ≠ .integer

/-- The coefficients and bases `d` become terms behind those so far: no more of them and no
heavier; if the folds are exact they have the value and the properties. -/
def Collects (env : ExprEnv) (P : Int → Prop) (terms : List Expr) (d : List (Int × Expr))
    (x : Building (List Expr)) : Prop :=
  Fold.Yields P x
    (fun out => Terms env out ∧ out.length ≤ terms.length + d.length ∧
      weightAll out ≤ weightAll terms + (d.map termWeight).sum)
    fun out => (∀ σ : Assignment, (out.map σ.intOf).sum =
        (terms.map σ.intOf).sum + (d.map fun t => t.1 * σ.intOf t.2).sum) ∧
      ∀ p, Closed P p → (∀ t ∈ terms, Everywhere p t) →
        (∀ t ∈ d, Everywhere p t.2 ∧ p (.integer t.1)) → ∀ t ∈ out, Everywhere p t

theorem Collects.bind {d d' : List (Int × Expr)} {x : Building (List Expr)}
    {f : List Expr → Building (List Expr)} (hx : Collects env P terms d x)
    (hf : ∀ out, Terms env out → Collects env P out d' (f out)) :
    Collects env P terms (d ++ d') (x >>= f) := by
  refine Fold.Yields.bind hx ?_
  rintro mid ⟨hmid, hlen, hweig⟩
  refine (hf mid hmid).imp ?_ ?_
  · rintro out ⟨hout, hlen', hweig'⟩
    refine ⟨hout, ?_, ?_⟩
    · rw [length_append]
      omega
    · rw [map_append, sum_append]
      omega
  · rintro out - ⟨hval', hall'⟩ ⟨hval, hall⟩
    refine ⟨fun σ => ?_, fun p hp ht hd => ?_⟩
    · rw [hval' σ, hval σ, map_append, sum_append, Int.add_assoc]
    · rw [forall_mem_append] at hd
      exact hall' p hp (hall p hp ht hd.1) hd.2

section
variable (hP : ∀ v, P v → InRange v)
include hP

theorem emit_collects {c : Int}
    (hc : InRange c) (hwf : WellFormed env b) (hop : b.op ≠ .integer) (hter : Terms env terms) :
    Collects env P terms [(c, b)] (env.emit c b terms) := by
  rw [emit]
  by_cases hzero : c = 0
  · rw [if_pos hzero]
    refine .pure ⟨hter, Nat.le_succ _, le_self_add⟩ ⟨fun σ => ?_, fun p _ h _ => h⟩
    rw [hzero, map_singleton, Int.zero_mul, sum_singleton, Int.add_zero]
  rw [if_neg hzero]
  -- the new term is the last one
  obtain ⟨x, hx, hterm⟩ : ∃ x, (if c = 1 then pure (terms ++ [b]) else
        env.mulN [.integer c, b] >>= fun term => pure (terms ++ [term])) =
        (x >>= fun term => pure (terms ++ [term])) ∧
      Fold.Yields P x
        (fun e => (WellFormed env e ∧ e.op ≠ .integer) ∧ weight e ≤ termWeight (c, b))
        fun e => (∀ σ : Assignment, σ.intOf e = c * σ.intOf b) ∧
          ∀ p, Closed P p → Everywhere p b → p (.integer c) → Everywhere p e := by
    by_cases hone : c = 1
    · rw [if_pos hone]
      refine ⟨pure b, (Fold.pure_then _ _).symm, .pure ⟨⟨hwf, hop⟩, le_add_self⟩
        ⟨fun σ => ?_, fun p _ hb _ => hb⟩⟩
      rw [hone, Int.one_mul]
    · rw [if_neg hone]
      refine ⟨_, rfl, (mulN_yields hP (show [Expr.integer c, b].length ≤ maxArgs from
        two_le_maxArgs) (pair_wellFormed (.integer hc) hwf)).imp ?_ ?_⟩
      · rintro e ⟨⟨hwfe, hle⟩, hnot⟩
        refine ⟨⟨hwfe, hnot ⟨b, mem_cons_of_mem _ mem_cons_self, hop⟩ fun v hv => ?_⟩, ?_⟩
        · rw [integersOf_cons_integer (e := .integer c) rfl, integersOf_cons_other hop] at hv
          rw [mem_singleton.mp hv]
          exact hzero
        · have hpos := one_le_bits c
          change weight e ≤ max 1 (bits c + (weight b + 0)) at hle
          show weight e ≤ cost 1 c + weight b
          rw [cost, if_neg hone]
          omega
      · rintro e - ⟨hval, hall⟩
        refine ⟨fun σ => ?_, fun p hp hb hpc => hall p hp
          (forall_mem_cons.mpr ⟨.integer hpc, forall_mem_singleton.mpr hb⟩)⟩
        rw [hval σ, map_cons, map_singleton, prod_cons, prod_singleton, σ.intOf_integer]
  refine (congrArg (Collects env P terms [(c, b)]) hx).mpr (hterm.bind ?_)
  rintro e ⟨he, hweig⟩
  refine .pure ⟨forall_mem_append.mpr ⟨hter, forall_mem_singleton.mpr he⟩,
    le_of_eq length_append, ?_⟩ ?_
  · rw [weightAll_append]
    exact Nat.add_le_add_left hweig _
  · rintro ⟨hval, hall⟩
    refine ⟨fun σ => ?_, fun p hp ht hd => forall_mem_append.mpr
      ⟨ht, forall_mem_singleton.mpr ?_⟩⟩
    · rw [map_append, sum_append, map_singleton, hval]
      rfl
    · obtain ⟨hb, hpc⟩ := hd (c, b) mem_cons_self
      exact hall p hp hb hpc

theorem collectTerms_collects {rest : List (Int × Expr)} {c : Int}
    (hd : ∀ t ∈ (c, b) :: rest, InRange t.1 ∧ WellFormed env t.2 ∧ t.2.op ≠ .integer)
    (hter : Terms env terms) :
    Collects env P terms ((c, b) :: rest) (env.collectTerms c b rest terms) := by
  induction rest generalizing c b terms with
  | nil =>
    obtain ⟨hc, hwf, hop⟩ := hd (c, b) mem_cons_self
    exact emit_collects hP hc hwf hop hter
  | cons t rest ih =>
    obtain ⟨c', b'⟩ := t
    obtain ⟨hc, hwf, hop⟩ : InRange c ∧ WellFormed env b ∧ b.op ≠ .integer :=
      hd (c, b) mem_cons_self
    have hrest := (forall_mem_cons.mp hd).2
    rw [collectTerms]
    by_cases hsame : env.same b' b = true
    · rw [if_pos hsame]
      obtain rfl := (env.same_iff b' b).mp hsame
      refine (Fold.Yields.folded (c + c')).bind fun c'' hc'' => ?_
      subst hc''
      refine (ih (c := clamp (c + c')) (forall_mem_cons.mpr ⟨⟨clamp_inRange _, hwf, hop⟩,
        (forall_mem_cons.mp hrest).2⟩) hter).imp ?_ ?_
      · rintro out ⟨hout, hlen, hweig⟩
        have hb := hwf.weight_pos.2 hop
        have hcost := cost_add_le (x := c) (y := c') hb
        refine ⟨hout, Nat.le_succ_of_le hlen, ?_⟩
        simp only [map_cons, sum_cons, termWeight] at hweig ⊢
        omega
      · rintro out - ⟨hval, hall⟩ hv
        have hclamp := clamp_of_inRange (hP _ hv)
        rw [hclamp] at hall
        refine ⟨fun σ => ?_, fun p hp ht hd => ?_⟩
        · simp only [hval σ, hclamp, map_cons, sum_cons]
          ring
        · obtain ⟨⟨hb, -⟩, hd⟩ := forall_mem_cons.mp hd
          exact hall p hp ht (forall_mem_cons.mpr
            ⟨⟨hb, hp.integer _ hv⟩, (forall_mem_cons.mp hd).2⟩)
    · rw [if_neg hsame]
      exact (emit_collects hP hc hwf hop hter).bind fun _ hout => ih hrest hout

theorem collect_collects {d : List (Int × Expr)}
    (hd : ∀ t ∈ d, InRange t.1 ∧ WellFormed env t.2 ∧ t.2.op ≠ .integer) :
    Collects env P [] d (env.collect d) := by
  have hperm := perm_insertionSort (fun s t : Int × Expr => env.addr s.2 ≤ env.addr t.2) d
  rw [collect]
  revert hperm
  generalize d.insertionSort (fun s t : Int × Expr => env.addr s.2 ≤ env.addr t.2) = sorted
  intro hperm
  cases sorted with
  | nil =>
    obtain rfl := hperm.nil_eq
    exact .pure ⟨forall_mem_nil _, le_rfl, le_rfl⟩ ⟨fun _ => rfl, fun _ _ _ _ => forall_mem_nil _⟩
  | cons t rest =>
    have hsor := collectTerms_collects hP (fun t ht => hd t (hperm.mem_iff.mp ht))
      (forall_mem_nil _)
    refine hsor.imp ?_ ?_
    · rw [hperm.length_eq, (hperm.map termWeight).sum_eq]
      exact fun _ h => h
    · rintro out - ⟨hval, hall⟩
      refine ⟨fun σ => ?_, fun p hp ht hd => hall p hp ht fun t ht => hd t (hperm.mem_iff.mp ht)⟩
      rw [hval σ, (hperm.map _).sum_eq]

/-- **`add_n` returns the sum.** -/
theorem addN_computes (hlen : inputs.length ≤ maxArgs) (hwf : ∀ i ∈ inputs, WellFormed env i) :
    Computes env P inputs (max 1 (weightAll inputs)) (fun σ => (inputs.map σ.intOf).sum)
      (env.addN inputs) := by
  have h := Combines.add
  rw [addN, if_neg (by omega)]
  refine (flatten_yields h hP (fun _ _ => rfl) inputs ([], 0) (by simpa using hlen)).bind ?_
  rintro ⟨terms, c⟩ ⟨hgat, hfew⟩
  have hweig := h.gathered_weight hgat
  have hran : InRange c := hgat.range (by decide)
  by_cases hnil : terms = []
  · simp only [if_pos hnil]
    refine .pure ⟨.integer hran, ?_⟩ fun hexact => ⟨fun σ => ?_, ?_⟩
    · rw [weight_integer]
      by_cases hzero : c = 0
      · rw [hzero]
        exact le_max_left _ _
      · rw [cost, if_neg hzero] at hweig
        omega
    · have hvalue := h.gathered_value hgat hexact σ
      rw [hnil, map_nil, show total (· + ·) 0 [] = 0 from rfl, h.unit_comb] at hvalue
      rw [σ.intOf_integer, hvalue]
      rfl
    · exact fun p hp _ => .integer (hexact.closed h hp)
  · simp only [if_neg hnil]
    have hwft : ∀ t ∈ terms, WellFormed env t :=
      fun t ht => opened_wellFormed hwf (hgat.mem_terms ht).1
    have hopt : ∀ t ∈ terms, t.op ≠ .integer := fun t ht => (hgat.mem_terms ht).2
    have hdec : ∀ t ∈ terms, Decomposes env t (termOf t) :=
      fun t ht => (decompose_spec (hwft t ht) (hopt t ht)).2
    rw [decomposeTerms_eq hwft hopt, Fold.pure_then, nil_append]
    have hd : ∀ t ∈ terms.map termOf, InRange t.1 ∧ WellFormed env t.2 ∧ t.2.op ≠ .integer := by
      intro t ht
      obtain ⟨e, he, rfl⟩ := mem_map.mp ht
      exact ⟨(hdec e he).range, (hdec e he).wellFormed, (hdec e he).notInteger⟩
    refine Fold.Yields.bind (collect_collects hP hd) ?_
    rintro out ⟨houtwf, hout, houtw⟩
    rw [length_nil, length_map, zero_add] at hout
    change weightAll out ≤ 0 + ((terms.map termOf).map termWeight).sum at houtw
    obtain ⟨e, heq, hwfe, hweight, hval, -, hall⟩ := reattach_spec env h
      (hout.trans hfew) (fun t ht => (houtwf t ht).1) (fun t ht => (houtwf t ht).2)
      hran fun hne => hne
    simp only [heq]
    refine .pure ⟨hwfe, hweight.trans ?_⟩ fun hQ hexact => ⟨fun σ => ?_, ?_⟩
    · have hsum : ((terms.map termOf).map termWeight).sum = weightAll terms := by
        rw [weightAll_eq_sum, map_map]
        congr 1
        exact map_congr_left fun t ht => (hdec t ht).weight_eq.symm
      omega
    · have hsum : ((terms.map termOf).map fun t => t.1 * σ.intOf t.2).sum =
          (terms.map σ.intOf).sum := by
        rw [map_map]
        congr 1
        exact map_congr_left fun t ht => ((hdec t ht).value σ).symm
      have hvalue := h.gathered_value hgat hexact σ
      rw [hval, total_add, hQ.1 σ, hsum, map_nil, sum_nil, Int.zero_add, ← total_add, hvalue]
      rfl
    · intro p hp hinp
      refine hall p hp.composite (hexact.closed h hp) (hQ.2 p hp (forall_mem_nil _) fun t ht => ?_)
      obtain ⟨e', he', rfl⟩ := mem_map.mp ht
      exact (hdec e' he').everywhere p hp.composite hp.one
        (opened_everywhere hinp (hgat.mem_terms he').1)

end

/-! ### Two operands -/

theorem ordered_computes {op : Op} {unit : Int} {comb : Int → Int → Int}
    (h : Combines op unit comb) (hl : WellFormed env l) (hr : WellFormed env r)
    (hopl : l.op ≠ .integer) (hopr : r.op ≠ .integer) :
    Computes env P [l, r] (weight l + weight r) (fun σ => comb (σ.intOf l) (σ.intOf r))
      (pure (.composite op (env.ordered l r))) := by
  have hints : integersOf [l, r] = [] := by
    rw [integersOf_cons_other hopl, integersOf_cons_other hopr]
    rfl
  have hc : Combination env comb unit [l, r] (.composite op (env.ordered l r)) := by
    rw [env.ordered_eq]
    refine .node h two_le_maxArgs le_rfl (pair_wellFormed hl hr) ?_ ?_
    · rw [hints]
      exact zero_le
    · rw [hints]
      exact nofun
  refine .pure ⟨hc.wellFormed, le_of_eq (hc.weight_eq.trans (weightAll_pair l r))⟩
    ⟨fun σ => ?_, fun p hp hall => hc.everywhere p hp.composite hall⟩
  rw [hc.value σ]
  show comb (σ.intOf l) (comb (σ.intOf r) unit) = _
  rw [h.comb_unit]

theorem Computes.mono {inputs' : List Expr} {w w' : Nat} {value value' : Assignment → Int}
    {x : Building Expr} (h : Computes env P inputs w value x) (hw : w ≤ w')
    (hvalue : ∀ σ, value σ = value' σ)
    (hinp : ∀ p, Closed P p → (∀ i ∈ inputs', Everywhere p i) → ∀ i ∈ inputs, Everywhere p i) :
    Computes env P inputs' w' value' x := by
  refine h.imp (fun _ he => ⟨he.1, he.2.trans hw⟩) ?_
  rintro e - ⟨hval, hall⟩
  exact ⟨fun σ => (hval σ).trans (hvalue σ), fun p hp h => hall p hp (hinp p hp h)⟩

theorem folded_computes (hP : ∀ v, P v → InRange v) {w : Nat} {v : Int}
    {value : Assignment → Int} (hweig : bits v ≤ w) (hval : ∀ σ, v = value σ) :
    Computes env P inputs w value (do let c ← Fold.folded v; pure (.integer c)) := by
  refine (Fold.Yields.folded v).bind fun c hc => ?_
  subst hc
  refine .pure ⟨.integer (clamp_inRange v), ?_⟩ fun hv => ⟨fun σ => ?_, fun p hp _ => ?_⟩
  · exact le_trans (bits_mono (natAbs_clamp_le v)) hweig
  · rw [clamp_of_inRange (hP v hv), σ.intOf_integer]
    exact hval σ
  · rw [clamp_of_inRange (hP v hv)]
    exact .integer (hp.integer v hv)

theorem Expr.isZeroInt_iff (e : Expr) : e.isZeroInt = true ↔ e.op = .integer ∧ e.payload = 0 := by
  rw [Expr.isZeroInt, Bool.and_eq_true, decide_eq_true_iff, decide_eq_true_iff]

theorem Expr.isOne_iff (e : Expr) : e.isOne = true ↔ e.op = .integer ∧ e.payload = 1 := by
  rw [Expr.isOne, Bool.and_eq_true, decide_eq_true_iff, decide_eq_true_iff]

theorem Expr.isNegOne_iff (e : Expr) : e.isNegOne = true ↔ e.op = .integer ∧ e.payload = -1 := by
  rw [Expr.isNegOne, Bool.and_eq_true, decide_eq_true_iff, decide_eq_true_iff]

theorem intOf_isZeroInt (σ : Assignment) (h : e.isZeroInt = true) : σ.intOf e = 0 := by
  obtain ⟨hop, hv⟩ := e.isZeroInt_iff.mp h
  rw [σ.intOf_of_integer hop, hv]

theorem intOf_isOne (σ : Assignment) (h : e.isOne = true) : σ.intOf e = 1 := by
  obtain ⟨hop, hv⟩ := e.isOne_iff.mp h
  rw [σ.intOf_of_integer hop, hv]

variable (hP : ∀ v, P v → InRange v)
include hP

/-- **`mul` returns the product.** -/
theorem mul_computes (hl : WellFormed env l) (hr : WellFormed env r) :
    Computes env P [l, r] (weight l + weight r) (fun σ => σ.intOf l * σ.intOf r)
      (env.mul l r) := by
  have hposl := hl.weight_pos.1
  rw [mul]
  split_ifs with hfast hints hfloats hzero hone hone'
  · obtain ⟨-, -, hopl, hopr, -⟩ := hfast
    exact ordered_computes .mul hl hr hopl hopr
  · refine folded_computes hP ?_ fun σ => ?_
    · rw [weight_of_integer hints.1, weight_of_integer hints.2]
      exact bits_mul_le _ _
    · rw [σ.intOf_of_integer hints.1, σ.intOf_of_integer hints.2]
  · exact absurd hfloats.1 hl.notFloat
  · refine .pure ⟨.integer (by decide), hposl.trans le_self_add⟩
      ⟨fun σ => ?_, fun p hp _ => .integer hp.zero⟩
    show 0 = σ.intOf l * σ.intOf r
    rcases hzero with hz | hz
    · rw [intOf_isZeroInt σ hz, Int.zero_mul]
    · rw [intOf_isZeroInt σ hz, Int.mul_zero]
  · refine .pure ⟨hr, le_add_self⟩ ⟨fun σ => ?_, fun p _ hall => hall r (by simp)⟩
    show σ.intOf r = σ.intOf l * σ.intOf r
    rw [intOf_isOne σ hone, Int.one_mul]
  · refine .pure ⟨hl, le_self_add⟩ ⟨fun σ => ?_, fun p _ hall => hall l (by simp)⟩
    show σ.intOf l = σ.intOf l * σ.intOf r
    rw [intOf_isOne σ hone', Int.mul_one]
  · refine (mulN_computes hP (show [l, r].length ≤ maxArgs from two_le_maxArgs)
      (pair_wellFormed hl hr)).mono ?_ (fun σ => ?_) fun _ _ h => h
    · rw [weightAll_pair]
      omega
    · rw [map_cons, map_singleton, prod_cons, prod_singleton]

/-- **`add` returns the sum.** -/
theorem add_computes (hl : WellFormed env l) (hr : WellFormed env r) :
    Computes env P [l, r] (weight l + weight r) (fun σ => σ.intOf l + σ.intOf r)
      (env.add l r) := by
  have hposr := hr.weight_pos.1
  rw [add]
  split_ifs with hfast hsame hints hfloats hzero hzero'
  · -- a sum of a term with itself is twice the term
    obtain ⟨-, -, -, -, hopl, -⟩ := hfast
    obtain rfl := (env.same_iff l r).mp hsame
    have htwo := hl.weight_pos.2 hopl
    refine (mul_computes hP (.integer (by decide)) hl).mono ?_ (fun σ => ?_)
      fun p hp hinp => forall_mem_cons.mpr
        ⟨.integer (hp.small 2 (by decide) (by decide)), (forall_mem_cons.mp hinp).2⟩
    · rw [weight_integer, show bits 2 = 2 from rfl]
      omega
    · rw [σ.intOf_integer, Int.two_mul]
  · obtain ⟨-, -, -, -, hopl, hopr, -⟩ := hfast
    exact ordered_computes .add hl hr hopl hopr
  · refine folded_computes hP ?_ fun σ => ?_
    · rw [weight_of_integer hints.1, weight_of_integer hints.2]
      exact bits_add_le _ _
    · rw [σ.intOf_of_integer hints.1, σ.intOf_of_integer hints.2]
  · exact absurd hfloats.1 hl.notFloat
  · refine .pure ⟨hr, le_add_self⟩ ⟨fun σ => ?_, fun p _ hall => hall r (by simp)⟩
    show σ.intOf r = σ.intOf l + σ.intOf r
    rw [intOf_isZeroInt σ hzero, Int.zero_add]
  · refine .pure ⟨hl, le_self_add⟩ ⟨fun σ => ?_, fun p _ hall => hall l (by simp)⟩
    show σ.intOf l = σ.intOf l + σ.intOf r
    rw [intOf_isZeroInt σ hzero', Int.add_zero]
  · refine (addN_computes hP (show [l, r].length ≤ maxArgs from two_le_maxArgs)
      (pair_wellFormed hl hr)).mono ?_ (fun σ => ?_) fun _ _ h => h
    · rw [weightAll_pair]
      omega
    · rw [map_cons, map_singleton, sum_cons, sum_singleton]

/-- **`neg` returns the negation.** -/
theorem neg_computes (he : WellFormed env e) :
    Computes env P [e] (weight e + 1) (fun σ => -σ.intOf e) (env.neg e) := by
  rw [neg]
  split_ifs with hint hfloat
  · refine folded_computes hP ?_ fun σ => ?_
    · rw [weight_of_integer hint]
      refine le_trans (bits_mono ?_) (Nat.le_succ _)
      rw [Int.zero_sub, Int.natAbs_neg]
    · rw [σ.intOf_of_integer hint, Int.zero_sub]
  · exact absurd hfloat he.notFloat
  · refine (mul_computes hP (.integer (by decide)) he).mono ?_ (fun σ => ?_)
      fun p hp hinp => forall_mem_cons.mpr
        ⟨.integer (hp.small (-1) (by decide) (by decide)), hinp⟩
    · rw [weight_integer, show bits (-1) = 1 from rfl, add_comm]
    · rw [σ.intOf_integer, Int.neg_one_mul]

theorem powLoop_yields (b : Int) (n : Nat) (c : Int) (hc : InRange c) :
    Fold.Yields P (powLoop b n c) InRange
      fun v => v = c * b ^ n ∧ ∀ p, Closed P p → p (.integer c) → p (.integer v) := by
  induction n generalizing c with
  | zero =>
    refine .pure hc ⟨?_, fun _ _ h => h⟩
    rw [Int.pow_zero, Int.mul_one]
  | succ n ih =>
    refine (Fold.Yields.folded (c * b)).bind fun c' hc' => ?_
    subst hc'
    refine (ih (clamp (c * b)) (clamp_inRange _)).weaken fun v _ hv hfold => ?_
    rw [clamp_of_inRange (hP _ hfold)] at hv
    refine ⟨?_, fun p hp _ => hv.2 p hp (hp.integer _ hfold)⟩
    rw [hv.1, Int.pow_succ]
    ring

/-- **`pow` returns the power.** -/
theorem pow_yields {n : Expr} (hb : WellFormed env b) (hn : WellFormed env n) :
    Fold.Yields P (pow b n) (WellFormed env) fun e =>
      (∀ σ : Assignment, σ.intOf e = σ.power (σ.intOf b) (σ.intOf n)) ∧
        ∀ p, Closed P p → (∀ i ∈ [b, n], Everywhere p i) → Everywhere p e := by
  rw [pow]
  split_ifs with hzero hone hfold
  · refine .pure (.integer (by decide)) ⟨fun σ => ?_, fun p hp _ => .integer hp.one⟩
    rw [intOf_isZeroInt σ hzero, σ.intOf_integer, Assignment.power, if_pos (Int.le_refl 0)]
    exact (pow_zero _).symm
  · refine .pure hb ⟨fun σ => ?_, fun p _ hall => hall b mem_cons_self⟩
    rw [intOf_isOne σ hone, Assignment.power, if_pos (by decide)]
    exact (pow_one _).symm
  · obtain ⟨hintb, hintn, hle, -⟩ := hfold
    refine (powLoop_yields hP b.payload n.payload.toNat 1 (by decide)).bind fun v hv => ?_
    refine .pure (.integer hv) fun hQ => ⟨fun σ => ?_, fun p hp _ => .integer (hQ.2 p hp hp.one)⟩
    rw [σ.intOf_integer, hQ.1, σ.intOf_of_integer hintb, σ.intOf_of_integer hintn,
      Assignment.power, if_pos hle, Int.one_mul]
  · have hwf : WellFormed env (.composite .pow [b, n]) :=
      .plain (by decide) two_le_maxArgs (pair_wellFormed hb hn)
    refine .pure hwf ⟨fun σ => ?_, fun p hp hall => .composite (hp.power _) hall⟩
    rfl

end Constructors
end Crucible
