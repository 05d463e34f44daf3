import Crucible.HashConsing
import Mathlib.Data.Nat.Pairing

/-! # The trees that pointers stand for

An interned node names its children by pointers to earlier nodes, so a pointer stands for a
tree.  In a pool that holds no node twice, two pointers are equal exactly when their trees are
(`treeOf_inj`), and a request for a node returns the pointer of the tree (`intern_tree`).  The
constructors of expressions are therefore written over trees.
-/
namespace Crucible
open List

/-- An expression: the fields of a node, with the children in the place of their pointers. -/
inductive Expr where
  | mk (op : Op) (flags : Flags) (symbolId : BitVec 32) (payload : Int) (args : List Expr)

namespace Expr

def op : Expr → Op
  | mk op _ _ _ _ => op

def flags : Expr → Flags
  | mk _ flags _ _ _ => flags

def payload : Expr → Int
  | mk _ _ _ payload _ => payload

def args : Expr → List Expr
  | mk _ _ _ _ args => args

@[simp] theorem flags_mk (op : Op) (flags : Flags) (s : BitVec 32) (payload : Int)
    (args : List Expr) : (mk op flags s payload args).flags = flags := rfl

@[simp] theorem args_mk (op : Op) (flags : Flags) (s : BitVec 32) (payload : Int)
    (args : List Expr) : (mk op flags s payload args).args = args := rfl

/-- Induction over expressions: what holds of a node whenever it holds of its children holds of
all expressions. -/
@[elab_as_elim]
theorem node_induction {motive : Expr → Prop}
    (node : ∀ op flags symbolId payload args, (∀ a ∈ args, motive a) →
      motive (mk op flags symbolId payload args)) (e : Expr) : motive e := by
  refine @Expr.rec motive (fun args => ∀ a ∈ args, motive a)
    (fun op flags symbolId payload args ih => node op flags symbolId payload args ih) ?_ ?_ e
  · intro a ha
    cases ha
  · intro a args ha hargs b hb
    rcases mem_cons.mp hb with rfl | hb
    · exact ha
    · exact hargs b hb

end Expr

/-! ### Trees of pointers -/

/-- The children of every node come before it. -/
def Earlier (nodes : List (Node Nat)) : Prop :=
  ∀ (ptr : Nat) (n : Node Nat), nodes[ptr]? = some n → ∀ child ∈ n.args, child < ptr

/-- The tree of a pointer.  What a pointer to no node stands for does not matter. -/
def treeOf (nodes : List (Node Nat)) (ptr : Nat) : Expr :=
  match nodes[ptr]? with
  | none => .mk .boolFalse 0 0 0 []
  | some n => .mk n.op n.flags n.symbolId n.payload (n.args.map fun child =>
      if _h : child < ptr then treeOf nodes child else .mk .boolFalse 0 0 0 [])
termination_by ptr

variable {nodes : List (Node Nat)} {ptr : Nat}

theorem treeOf_eq (hear : Earlier nodes) {n : Node Nat} (h : nodes[ptr]? = some n) :
    treeOf nodes ptr = .mk n.op n.flags n.symbolId n.payload (n.args.map (treeOf nodes)) := by
  rw [treeOf, h]
  simp only [Expr.mk.injEq, true_and]
  refine map_congr_left fun child hchild => ?_
  rw [dif_pos (hear ptr n h child hchild)]

theorem treeOf_append (hear : Earlier nodes) (n : Node Nat) (hptr : ptr < nodes.length) : treeOf
    (nodes ++ [n]) ptr = treeOf nodes ptr := by
  induction ptr using Nat.strong_induction_on with
  | _ ptr ih =>
    obtain ⟨e, he⟩ : ∃ e, nodes[ptr]? = some e := ⟨_, getElem?_eq_getElem hptr⟩
    rw [treeOf, treeOf_eq hear he, getElem?_append_left hptr, he]
    simp only [Expr.mk.injEq, true_and]
    refine map_congr_left fun child hchild => ?_
    have hlt := hear ptr e he child hchild
    rw [dif_pos hlt, ih child hlt (hlt.trans hptr)]

theorem map_inj_on {α β : Type} {f : α → β} {l l' : List α}
    (hinj : ∀ a ∈ l, ∀ b ∈ l', f a = f b → a = b) (h : l.map f = l'.map f) : l = l' := by
  refine ext_getElem (by simpa using congrArg length h) fun i hi hi' => ?_
  refine hinj _ (getElem_mem hi) _ (getElem_mem hi') ?_
  simpa [hi, hi'] using congrArg (·[i]?) h

/-- **Equal trees have one pointer**, in an arena without a node that is there twice. -/
theorem treeOf_inj (hear : Earlier nodes) (hnod : nodes.Nodup)
    {ptr' : Nat} (hptr : ptr < nodes.length) (hptr' : ptr' < nodes.length)
    (h : treeOf nodes ptr = treeOf nodes ptr') : ptr = ptr' := by
  induction ptr using Nat.strong_induction_on generalizing ptr' with
  | _ ptr ih =>
    obtain ⟨n, hn⟩ : ∃ n, nodes[ptr]? = some n := ⟨_, getElem?_eq_getElem hptr⟩
    obtain ⟨n', hn'⟩ : ∃ n', nodes[ptr']? = some n' := ⟨_, getElem?_eq_getElem hptr'⟩
    rw [treeOf_eq hear hn, treeOf_eq hear hn'] at h
    obtain ⟨hop, hflags, hsym, hpay, hargs⟩ := Expr.mk.inj h
    have hsame : n.args = n'.args := by
      refine map_inj_on (fun a ha b hb hab => ?_) hargs
      have ha' := hear ptr n hn a ha
      have hb' := hear ptr' n' hn' b hb
      exact ih a ha' (ha'.trans hptr) (hb'.trans hptr') hab
    have hnode : n = n' := Node.ext_fields hop hflags hsym hpay hsame
    exact (getElem?_inj hptr hnod).mp (hn.trans (hnode ▸ hn'.symm))

/-- **A request for a node returns the tree of the node**, and no tree changes. -/
theorem intern_tree {env : PoolEnv} {p p' : Pool} {n : Node Nat} (h : env.Sound p)
    (hear : Earlier p.nodes) (hargs : ∀ child ∈ n.args, child < p.nodes.length)
    (hrun : env.internNode p n = .ok (p', ptr)) :
    treeOf p'.nodes ptr = .mk n.op n.flags n.symbolId n.payload (n.args.map (treeOf p.nodes)) ∧
      Earlier p'.nodes ∧ ∀ q < p.nodes.length, treeOf p'.nodes q = treeOf p.nodes q := by
  have hlt : p.count < PoolEnv.maxNodes := by
    by_contra hge
    rw [h.intern_full (by omega) n] at hrun
    cases hrun
  obtain ⟨p'', ptr'', hrun', -, hnod, hptr⟩ := h.intern_ok hlt n
  obtain ⟨rfl, rfl⟩ := Prod.mk.inj (Except.ok.inj (hrun'.symm.trans hrun))
  by_cases hmem : n ∈ p.nodes
  · rw [if_pos hmem] at hnod
    rw [hnod] at hptr ⊢
    exact ⟨treeOf_eq hear hptr, hear, fun _ _ => rfl⟩
  · rw [if_neg hmem] at hnod
    have hear' : Earlier p''.nodes := by
      intro q m hq child hchild
      rw [hnod] at hq
      rcases lt_or_ge q p.nodes.length with hlt | hge
      · rw [getElem?_append_left hlt] at hq
        exact hear q m hq child hchild
      · rw [getElem?_append_right hge, getElem?_singleton] at hq
        split at hq
        · cases hq
          exact lt_of_lt_of_le (hargs child hchild) hge
        · cases hq
    have hold : ∀ q < p.nodes.length, treeOf p''.nodes q = treeOf p.nodes q := by
      intro q hq
      rw [hnod]
      exact treeOf_append hear n hq
    refine ⟨?_, hear', hold⟩
    rw [treeOf_eq hear' hptr]
    congr 1
    exact map_congr_left fun child hchild => hold child (hargs child hchild)

/-- A request names nodes that are in the pool. -/
def Pool.Knows (p : Pool) : PoolEnv.Call → Prop
  | .intern n => ∀ child ∈ n.args, child < p.nodes.length
  | .reserve _ => True

/-- **Pointers are trees, through every run of a pool.**  Two pointers are equal exactly when
their trees are, and a request returns the pointer of the tree that it asks for and changes no
tree. -/
theorem pool_shares_trees {env : PoolEnv} {initialCapacity : Nat} {start p : Pool}
    {calls : List PoolEnv.Call} (hnew : env.newPool initialCapacity = .ok start)
    (hknows : AllSteps env.call Pool.Knows start calls)
    (hrun : calls.foldlM env.call start = .ok p) :
    (∀ ptr < p.nodes.length, ∀ ptr' < p.nodes.length,
      treeOf p.nodes ptr = treeOf p.nodes ptr' ↔ ptr = ptr') ∧
    ∀ n, p.Knows (.intern n) → ∀ p' ptr, env.internNode p n = .ok (p', ptr) →
      treeOf p'.nodes ptr = .mk n.op n.flags n.symbolId n.payload (n.args.map (treeOf p.nodes)) ∧
      ∀ q < p.nodes.length, treeOf p'.nodes q = treeOf p.nodes q := by
  have hstart : env.Sound start ∧ Earlier start.nodes := by
    rcases lt_or_ge maxCapacity initialCapacity with hlt | hge
    · rw [PoolEnv.newPool, if_pos hlt] at hnew
      cases hnew
    · obtain ⟨p₀, hnew', hsound, hnodes⟩ := env.newPool_ok hge
      cases hnew'.symm.trans hnew
      refine ⟨hsound, fun ptr n hn child hchild => ?_⟩
      -- no seed has a child
      have hnone : ∀ n ∈ PoolEnv.seeds, n.args = [] := by simp [PoolEnv.seeds]
      rw [hnone n (hnodes ▸ mem_of_getElem? hn)] at hchild
      cases hchild
  obtain ⟨hsound, hear⟩ : env.Sound p ∧ Earlier p.nodes := by
    refine foldlM_allSteps (fun p => env.Sound p ∧ Earlier p.nodes) hstart ?_ hknows hrun
    rintro q c q' hq ⟨hsound, hear⟩ hcall
    refine ⟨(hsound.call_ok hcall).1, ?_⟩
    cases c with
    | intern n =>
      obtain ⟨⟨q₁, ptr⟩, hintern, hcall⟩ := bind_ok hcall
      cases hcall
      exact (intern_tree hsound hear hq hintern).2.1
    | reserve entries =>
      rcases hsound.reserve_cases entries with ⟨q₁, heq, -, hnodes, -⟩ | ⟨-, heq⟩
      · cases heq.symm.trans hcall
        exact hnodes ▸ hear
      · cases heq.symm.trans hcall
  refine ⟨fun ptr hptr ptr' hptr' => ?_, fun n hn p' ptr hintern => ?_⟩
  · exact ⟨treeOf_inj hear hsound.nodup hptr hptr', fun heq => heq ▸ rfl⟩
  · obtain ⟨htree, -, hold⟩ := intern_tree hsound hear hn hintern
    exact ⟨htree, hold⟩

theorem pool_shares_trees_integer : ∃ p,
    PoolEnv.portable.run 0 [.intern (PoolEnv.bigInteger 0)] = .ok p ∧
    ∀ ptr < p.nodes.length, ∀ ptr' < p.nodes.length,
      treeOf p.nodes ptr = treeOf p.nodes ptr' ↔ ptr = ptr' := by
  obtain ⟨start, hnew, hsound, hnodes⟩ := PoolEnv.portable.newPool_ok (Nat.zero_le maxCapacity)
  obtain ⟨p, ptr, hintern, -⟩ := hsound.intern_ok
    (by rw [hsound.count, hnodes, PoolEnv.seeds_length]; decide) (PoolEnv.bigInteger 0)
  have hcall : PoolEnv.portable.call start (.intern (PoolEnv.bigInteger 0)) = .ok p := by
    rw [PoolEnv.call, bind_of_ok hintern]
    rfl
  have hknows : AllSteps PoolEnv.portable.call Pool.Knows start [.intern (PoolEnv.bigInteger 0)] :=
    ⟨forall_mem_nil _, by rw [hcall]; trivial⟩
  refine ⟨p, ?_, (pool_shares_trees hnew hknows (foldlM_cons_ok hcall)).1⟩
  rw [PoolEnv.run, bind_of_ok hnew]
  exact foldlM_cons_ok hcall

/-! ### A number for every tree -/

/-- A number for an integer. -/
def intCode (v : Int) : Nat := if 0 ≤ v then 2 * v.natAbs else 2 * v.natAbs + 1

theorem intCode_inj {v w : Int} (h : intCode v = intCode w) : v = w := by
  rw [intCode, intCode] at h
  split_ifs at h <;> omega

mutual

/-- A number for an expression: its fields and the numbers of its children, paired. -/
def Expr.code : Expr → Nat
  | .mk op flags symbolId payload args =>
    Nat.pair op.code (Nat.pair flags.toNat (Nat.pair symbolId.toNat
      (Nat.pair (intCode payload) (codeAll args))))

def codeAll : List Expr → Nat
  | [] => 0
  | e :: l => Nat.pair e.code (codeAll l) + 1

end

/-- **Different expressions have different numbers.** -/
theorem Expr.code_injective : Function.Injective Expr.code := by
  intro e
  induction e using Expr.node_induction with
  | node op flags s payload args ih =>
    rintro ⟨op', flags', s', payload', args'⟩ h
    have hlist : ∀ l l' : List Expr, (∀ a ∈ l, ∀ ⦃b⦄, a.code = b.code → a = b) →
        codeAll l = codeAll l' → l = l' := by
      intro l
      induction l with
      | nil =>
        intro l' _ hcode
        cases l' with
        | nil => rfl
        | cons b l' => exact absurd hcode (Nat.succ_ne_zero _).symm
      | cons a l ihl =>
        intro l' hinj hcode
        cases l' with
        | nil => exact absurd hcode (Nat.succ_ne_zero _)
        | cons b l' =>
          obtain ⟨hhead, htail⟩ := Nat.pair_eq_pair.mp (Nat.succ.inj hcode)
          rw [hinj a mem_cons_self hhead, ihl l' (fun c hc => hinj c (mem_cons_of_mem _ hc)) htail]
    rw [code, code] at h
    simp only [Nat.pair_eq_pair] at h
    obtain ⟨hop, hflags, hsym, hpay, hargs⟩ := h
    rw [Op.code_inj hop, BitVec.eq_of_toNat_eq hflags, BitVec.eq_of_toNat_eq hsym,
      intCode_inj hpay, hlist args args' ih hargs]

end Crucible
