import Crucible.ContentHash
import Crucible.TensorGraph

/-! # Structural equality of graph nodes

`cse_hash_` and `cse_equal_` compare two nodes up to the canonical representatives of their
inputs.  Both read the body of a node through the struct that its kind asks for.  The two
accessors fail their contract on a missing body, and a body of the other struct is read as
what it is not: both end the call with a fault here.  `cseHash_congr` says that the hash is a
function of what is compared.
-/
namespace Crucible

/-- What ends a pass without an answer. -/
inductive PassFault where
  /-- A contract fails. -/
  | contract
  /-- A body is read through the struct of the other kind. -/
  | wrongBody
deriving DecidableEq

def NodeKind.code (k : NodeKind) : Nat := k.ctorIdx

def ReduceOp.code (op : ReduceOp) : Nat := op.ctorIdx

/-- The addresses of the interned expressions and of the nodes, which the process chooses. -/
structure Addresses (E : Type) where
  expr : E → Nat
  node : Nat → Nat

namespace GraphNode
variable {E : Type}

variable (n : GraphNode E)

def computeBody : Except PassFault ComputeBody :=
  if n.hasComputeBody then
    match n.body with
    | .null => .error .contract
    | .compute body => .ok body
    | .external _ => .error .wrongBody
  else .error .contract

def externInfo : Except PassFault ExternInfo :=
  if n.hasExternInfo then
    match n.body with
    | .null => .error .contract
    | .compute _ => .error .wrongBody
    | .external info => .ok info
  else .error .contract

/-- The sizes that the passes read, as many as fit a byte. -/
def dims : List E := n.size.take ((n.ndim + n.nred) % 2 ^ 8)

/-- The fields that two nodes are compared by before their bodies. -/
structure Shell (E : Type) where
  kind : NodeKind
  dtype : ScalarType
  deviceIdx : Int
  ndim : Nat
  nred : Nat
  numInputs : Nat
  dims : List E
  inputs : List Nat
deriving DecidableEq

def shell (canonical : Nat → Nat) (n : GraphNode E) : Shell E where
  kind := n.kind
  dtype := n.dtype
  deviceIdx := n.deviceIdx
  ndim := n.ndim
  nred := n.nred
  numInputs := n.inputs.length
  dims := n.dims
  inputs := n.inputs.map canonical

def Shell.hash (addrs : Addresses E) (s : Shell E) : Nat :=
  let packed := s.kind.code ||| wrap64 (word64 s.dtype.code <<< 8) |||
    ((s.deviceIdx % 2 ^ 8).toNat <<< 16) ||| (s.ndim <<< 24) ||| (s.nred <<< 32)
  let hash := s.dims.foldl (fun hash e => combineIds hash (addrs.expr e)) (fmix64 packed)
  s.inputs.foldl (fun hash i => combineIds hash (addrs.node i)) hash

/-- The characters of a name, folded one by one. -/
def nameHash (hash : Nat) : Option String → Nat
  | none => hash
  | some name => name.toList.foldl (fun hash c => combineIds hash c.toNat) hash

/-- The instructions of a compute body, folded word by word. -/
def hashCompute (hash : Nat) : Except PassFault Nat :=
  if (n.kind = .pointwise ∨ n.kind = .reduction) ∧ n.body ≠ .null then do
    let body ← n.computeBody
    pure (body.ops.foldl combineIds hash)
  else pure hash

def hashExtern (hash : Nat) : Except PassFault Nat :=
  if n.kind = .external ∧ n.body ≠ .null then do
    let info ← n.externInfo
    pure (nameHash hash info.pythonKernelName)
  else pure hash

def cseHash (addrs : Addresses E) (canonical : Nat → Nat) (n : GraphNode E) :
    Except PassFault Nat := do
  let hash ← n.hashCompute ((n.shell canonical).hash addrs)
  let hash ← n.hashExtern hash
  pure (if n.kind = .reduction then hash ^^^ fmix64 n.reduceOp.code else hash)

/-- The comparison of the compute bodies, which only two of the kinds have. -/
def sameCompute (lhs rhs : GraphNode E) : Except PassFault Bool :=
  if lhs.kind = .pointwise ∨ lhs.kind = .reduction then do
    let lhsBody ← lhs.computeBody
    let rhsBody ← rhs.computeBody
    pure (decide (lhsBody = rhsBody))
  else pure true

def sameReduce (lhs rhs : GraphNode E) : Bool :=
  lhs.kind ≠ .reduction || (lhs.reduceOp = rhs.reduceOp && lhs.reduceHint = rhs.reduceHint &&
    lhs.srcDtype = rhs.srcDtype)

def sameExtern (lhs rhs : GraphNode E) : Except PassFault Bool :=
  if lhs.kind = .external then do
    let lhsInfo ← lhs.externInfo
    let rhsInfo ← rhs.externInfo
    pure (decide (lhsInfo.pythonKernelName = rhsInfo.pythonKernelName) &&
      decide (lhsInfo.constantArgs = rhsInfo.constantArgs))
  else pure true

def cseEqual [DecidableEq E] (canonical : Nat → Nat) (lhs rhs : GraphNode E) :
    Except PassFault Bool :=
  if lhs.shell canonical ≠ rhs.shell canonical then pure false
  else do
    let compute ← sameCompute lhs rhs
    if !compute then pure false
    else if !sameReduce lhs rhs then pure false
    else sameExtern lhs rhs

/-! ### What the two functions compare -/

def externKey : NodeBody → NodeBody
  | .external info => .external { info with cppKernelName := none }
  | body => body

/-- What is compared apart from the shell. -/
structure BodyKey where
  compute : Option NodeBody
  reduce : Option (ReduceOp × ReduceHint × ScalarType)
  external : Option NodeBody
deriving DecidableEq

def bodyKey : BodyKey where
  compute := if n.kind = .pointwise ∨ n.kind = .reduction then some n.body else none
  reduce := if n.kind = .reduction then some (n.reduceOp, n.reduceHint, n.srcDtype) else none
  external := if n.kind = .external then some (externKey n.body) else none

/-- The comparison can read the body. -/
def Comparable : Prop :=
  (n.kind = .pointwise ∨ n.kind = .reduction → ∃ body, n.body = .compute body) ∧
  (n.kind = .external → ∃ info, n.body = .external info)

/-- The hash can read the body, or finds none. -/
def Hashable : Prop :=
  (n.kind = .pointwise ∨ n.kind = .reduction → ∀ info, n.body ≠ .external info) ∧
  (n.kind = .external → ∀ body, n.body ≠ .compute body)

section Spec
variable {addrs : Addresses E} {canonical canonical' : Nat → Nat} {lhs rhs n : GraphNode E}

theorem computeBody_ok {body : ComputeBody} (hkind : n.kind = .pointwise ∨ n.kind = .reduction)
    (hbody : n.body = .compute body) : n.computeBody = .ok body := by
  have hhas : n.hasComputeBody := by
    rcases hkind with hkind | hkind <;> simp [hasComputeBody, hkind]
  rw [computeBody, if_pos hhas, hbody]

theorem body_of_computeBody {body : ComputeBody} (h : n.computeBody = .ok body) :
    n.body = .compute body := by
  unfold computeBody at h
  split at h
  · cases hbody : n.body <;> rw [hbody] at h <;> cases h
    rfl
  · cases h

theorem externInfo_ok {info : ExternInfo} (hkind : n.kind = .external)
    (hbody : n.body = .external info) : n.externInfo = .ok info := by
  have hhas : n.hasExternInfo := by simp [hasExternInfo, hkind]
  rw [externInfo, if_pos hhas, hbody]

theorem body_of_externInfo {info : ExternInfo} (h : n.externInfo = .ok info) :
    n.body = .external info := by
  unfold externInfo at h
  split at h
  · cases hbody : n.body <;> rw [hbody] at h <;> cases h
    rfl
  · cases h

theorem cseEqual_of_shell_ne [DecidableEq E] (h : lhs.shell canonical ≠ rhs.shell canonical) :
    lhs.cseEqual canonical rhs = .ok false := by
  rw [cseEqual, if_pos h]
  rfl

theorem sameCompute_eq (hkind : lhs.kind = rhs.kind) (hl : lhs.Comparable) (hr : rhs.Comparable) :
    sameCompute lhs rhs = .ok (decide (lhs.bodyKey.compute = rhs.bodyKey.compute)) := by
  unfold sameCompute bodyKey
  by_cases hc : lhs.kind = .pointwise ∨ lhs.kind = .reduction
  · obtain ⟨lbody, hlbody⟩ := hl.1 hc
    have hc' := hkind ▸ hc
    obtain ⟨rbody, hrbody⟩ := hr.1 hc'
    simp only [if_pos hc, if_pos hc', computeBody_ok hc hlbody, computeBody_ok hc' hrbody, hlbody,
      hrbody, Option.some.injEq, NodeBody.compute.injEq]
    rfl
  · have hc' : ¬ (rhs.kind = .pointwise ∨ rhs.kind = .reduction) := hkind ▸ hc
    simp only [if_neg hc, if_neg hc', decide_true]
    rfl

theorem sameReduce_eq (hkind : lhs.kind = rhs.kind) :
    sameReduce lhs rhs = decide (lhs.bodyKey.reduce = rhs.bodyKey.reduce) := by
  unfold sameReduce bodyKey
  by_cases hc : lhs.kind = .reduction
  · have hc' := hkind ▸ hc
    simp [hc, hc', Bool.and_assoc]
  · have hc' : ¬ rhs.kind = .reduction := hkind ▸ hc
    simp [hc, hc']

theorem sameExtern_eq (hkind : lhs.kind = rhs.kind) (hl : lhs.Comparable) (hr : rhs.Comparable) :
    sameExtern lhs rhs = .ok (decide (lhs.bodyKey.external = rhs.bodyKey.external)) := by
  unfold sameExtern bodyKey
  by_cases hc : lhs.kind = .external
  · obtain ⟨linfo, hlbody⟩ := hl.2 hc
    have hc' := hkind ▸ hc
    obtain ⟨rinfo, hrbody⟩ := hr.2 hc'
    simp only [if_pos hc, if_pos hc', externInfo_ok hc hlbody, externInfo_ok hc' hrbody, hlbody,
      hrbody, externKey, Option.some.injEq, NodeBody.external.injEq, ExternInfo.mk.injEq, true_and,
      ← Bool.decide_and]
    rfl
  · have hc' : ¬ rhs.kind = .external := hkind ▸ hc
    simp only [if_neg hc, if_neg hc', decide_true]
    rfl

/-- **Two nodes with one shell are compared by their bodies.** -/
theorem cseEqual_of_comparable [DecidableEq E]
    (h : lhs.shell canonical = rhs.shell canonical) (hl : lhs.Comparable) (hr : rhs.Comparable) :
    lhs.cseEqual canonical rhs = .ok (decide (lhs.bodyKey = rhs.bodyKey)) := by
  have hkind : lhs.kind = rhs.kind := congrArg Shell.kind h
  rw [cseEqual, if_neg (not_not.mpr h), sameCompute_eq hkind hl hr, sameReduce_eq hkind,
    sameExtern_eq hkind hl hr]
  have hkey : lhs.bodyKey = rhs.bodyKey ↔ lhs.bodyKey.compute = rhs.bodyKey.compute ∧
      lhs.bodyKey.reduce = rhs.bodyKey.reduce ∧ lhs.bodyKey.external = rhs.bodyKey.external := by
    exact BodyKey.mk.injEq .. ▸ Iff.rfl
  by_cases hcom : lhs.bodyKey.compute = rhs.bodyKey.compute
  · by_cases hred : lhs.bodyKey.reduce = rhs.bodyKey.reduce
    · simp [hkey, hcom, hred, bind, Except.bind]
    · simp [hkey, hcom, hred, bind, Except.bind, pure, Except.pure]
  · simp [hkey, hcom, bind, Except.bind, pure, Except.pure]

theorem comparable_of_ok [DecidableEq E] {same : Bool}
    (h : lhs.shell canonical = rhs.shell canonical) (hok : lhs.cseEqual canonical rhs = .ok same) :
    lhs.Comparable ∧ rhs.Comparable := by
  have hkind : lhs.kind = rhs.kind := congrArg Shell.kind h
  rw [cseEqual, if_neg (not_not.mpr h)] at hok
  obtain ⟨compute, hcom, hrest⟩ := bind_ok hok
  have hcomp : lhs.kind = .pointwise ∨ lhs.kind = .reduction →
      (∃ body, lhs.body = .compute body) ∧ ∃ body, rhs.body = .compute body := by
    intro hc
    rw [sameCompute, if_pos hc] at hcom
    obtain ⟨body, hl, hcom⟩ := bind_ok hcom
    obtain ⟨body', hr, -⟩ := bind_ok hcom
    exact ⟨⟨body, body_of_computeBody hl⟩, body', body_of_computeBody hr⟩
  have hext : lhs.kind = .external →
      (∃ info, lhs.body = .external info) ∧ ∃ info, rhs.body = .external info := by
    intro hx
    -- no other part of the comparison is about an external node
    have hnone : sameCompute lhs rhs = .ok true := by simp [sameCompute, hx, pure, Except.pure]
    cases hnone.symm.trans hcom
    simp only [sameReduce, hx, sameExtern] at hrest
    obtain ⟨info, hl, hrest⟩ := bind_ok hrest
    obtain ⟨info', hr, -⟩ := bind_ok hrest
    exact ⟨⟨info, body_of_externInfo hl⟩, info', body_of_externInfo hr⟩
  refine ⟨⟨fun hc => (hcomp hc).1, fun hx => (hext hx).1⟩, ?_⟩
  rw [Comparable, ← hkind]
  exact ⟨fun hc => (hcomp hc).2, fun hx => (hext hx).2⟩

/-- **A body that cannot be read ends the comparison.** -/
theorem cseEqual_fault [DecidableEq E] (h : lhs.shell canonical = rhs.shell canonical)
    (hbad : ¬ (lhs.Comparable ∧ rhs.Comparable)) : ∃ e, lhs.cseEqual canonical rhs = .error e := by
  cases hok : lhs.cseEqual canonical rhs with
  | error e => exact ⟨e, rfl⟩
  | ok same => exact absurd (comparable_of_ok h hok) hbad

theorem hashCompute_congr (hkind : lhs.kind = rhs.kind)
    (hbody : lhs.bodyKey.compute = rhs.bodyKey.compute) (hash : Nat) :
    lhs.hashCompute hash = rhs.hashCompute hash := by
  unfold hashCompute
  by_cases hc : lhs.kind = .pointwise ∨ lhs.kind = .reduction
  · have hc' := hkind ▸ hc
    have hsame : lhs.body = rhs.body := by
      simpa only [bodyKey, if_pos hc, if_pos hc', Option.some.injEq] using hbody
    have hread : lhs.computeBody = rhs.computeBody := by
      have hhas : lhs.hasComputeBody = rhs.hasComputeBody := by
        rw [hasComputeBody, hasComputeBody, hkind]
      rw [computeBody, computeBody, hhas, hsame]
    simp only [hkind, hsame, hread]
  · have hc' : ¬ (rhs.kind = .pointwise ∨ rhs.kind = .reduction) := hkind ▸ hc
    rw [if_neg fun h => hc h.1, if_neg fun h => hc' h.1]

theorem externKey_cases {a b : NodeBody} (h : externKey a = externKey b) :
    a = b ∨ ∃ info info', a = .external info ∧ b = .external info' ∧
      info.pythonKernelName = info'.pythonKernelName := by
  cases a <;> cases b <;> simp_all [externKey]

theorem hashExtern_congr (hkind : lhs.kind = rhs.kind)
    (hbody : lhs.bodyKey.external = rhs.bodyKey.external) (hash : Nat) :
    lhs.hashExtern hash = rhs.hashExtern hash := by
  unfold hashExtern
  by_cases hc : lhs.kind = .external
  · have hc' := hkind ▸ hc
    have hsame : externKey lhs.body = externKey rhs.body := by
      simpa only [bodyKey, if_pos hc, if_pos hc', Option.some.injEq] using hbody
    rcases externKey_cases hsame with hsame | ⟨info, info', hl, hr, hname⟩
    · have hread : lhs.externInfo = rhs.externInfo := by
        rw [externInfo, externInfo, hasExternInfo, hasExternInfo, hkind, hsame]
      simp only [hkind, hsame, hread]
    · simp only [hc, hc', hl, hr, externInfo_ok hc hl, externInfo_ok hc' hr]
      simp [hname, bind, Except.bind]
  · rw [if_neg fun h => hc h.1, if_neg fun h => (hkind ▸ hc) h.1]

/-- **The hash is a function of what is compared.** -/
theorem cseHash_congr (hshell : lhs.shell canonical = rhs.shell canonical')
    (hbody : lhs.bodyKey = rhs.bodyKey) :
    lhs.cseHash addrs canonical = rhs.cseHash addrs canonical' := by
  have hkind : lhs.kind = rhs.kind := congrArg Shell.kind hshell
  have hcom := hashCompute_congr hkind (congrArg BodyKey.compute hbody)
  have hext := hashExtern_congr hkind (congrArg BodyKey.external hbody)
  have hlast : ∀ hash : Nat, (if lhs.kind = .reduction then hash ^^^ fmix64 lhs.reduceOp.code
      else hash) = if rhs.kind = .reduction then hash ^^^ fmix64 rhs.reduceOp.code else hash := by
    intro hash
    by_cases hc : lhs.kind = .reduction
    · have hc' := hkind ▸ hc
      have hred := congrArg BodyKey.reduce hbody
      simp only [bodyKey, if_pos hc, if_pos hc', Option.some.injEq, Prod.mk.injEq] at hred
      rw [if_pos hc, if_pos hc', hred.1]
    · rw [if_neg hc, if_neg (hkind ▸ hc)]
  unfold cseHash
  rw [hshell, hcom]
  simp only [hext, hlast]

theorem cseHash_ok (h : n.Hashable) : ∃ hash, n.cseHash addrs canonical = .ok hash := by
  have hcom : ∀ hash, ∃ hash', n.hashCompute hash = .ok hash' := by
    intro hash
    unfold hashCompute
    by_cases hc : (n.kind = .pointwise ∨ n.kind = .reduction) ∧ n.body ≠ .null
    · rw [if_pos hc]
      cases hbody : n.body with
      | null => exact absurd hbody hc.2
      | compute body =>
        rw [computeBody_ok hc.1 hbody]
        exact ⟨_, rfl⟩
      | external info => exact absurd hbody (h.1 hc.1 info)
    · rw [if_neg hc]
      exact ⟨_, rfl⟩
  have hext : ∀ hash, ∃ hash', n.hashExtern hash = .ok hash' := by
    intro hash
    unfold hashExtern
    by_cases hc : n.kind = .external ∧ n.body ≠ .null
    · rw [if_pos hc]
      cases hbody : n.body with
      | null => exact absurd hbody hc.2
      | compute body => exact absurd hbody (h.2 hc.1 body)
      | external info =>
        rw [externInfo_ok hc.1 hbody]
        exact ⟨_, rfl⟩
    · rw [if_neg hc]
      exact ⟨_, rfl⟩
  obtain ⟨hash, heq⟩ := hcom ((n.shell canonical).hash addrs)
  obtain ⟨hash', heq'⟩ := hext hash
  unfold cseHash
  rw [heq]
  refine ⟨_, (bind_of_ok rfl).trans (bind_of_ok heq')⟩

theorem cseHash_fault {info : ExternInfo} (hkind : n.kind = .pointwise ∨ n.kind = .reduction)
    (hbody : n.body = .external info) : ∃ e, n.cseHash addrs canonical = .error e := by
  cases hok : n.cseHash addrs canonical with
  | error e => exact ⟨e, rfl⟩
  | ok hash =>
    have hnull : n.body ≠ .null := by
      rw [hbody]
      exact nofun
    obtain ⟨_, hcom, -⟩ := bind_ok hok
    rw [hashCompute, if_pos ⟨hkind, hnull⟩] at hcom
    obtain ⟨body, hread, -⟩ := bind_ok hcom
    cases hbody.symm.trans (body_of_computeBody hread)

end Spec
end GraphNode
end Crucible
