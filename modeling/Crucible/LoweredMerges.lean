import Crucible.CommonSubexprs
import Crucible.LoweredBodies

/-! # Which ops of a trace are merged

Lowering a trace and eliminating the common subexpressions merges two ops when the graph
cannot tell them apart.  `Alike` says when that is, on the trace: a node has no output port,
an absent input leaves no mark, and only the name of an external kernel is compared.
`SameComputation` is what it should be.  Two ops have one value under every meaning of the
kernels exactly when they are the same computation; the meaning that tells most apart is the
one in which a kernel builds a term.
-/
namespace Crucible
open List GraphNode

namespace TraceGraph
open Source

/-! ### The meaning of a trace -/

variable (tg : TraceGraph)

/-- The output of its producer that input `n` of op `i` reads. -/
def portOf (i n : Nat) : Nat :=
  match tg.edges.find? fun e => e.dst = i && e.dstPort = n && e.kind = .dataFlow with
  | some e => e.srcPort
  | none => 0

/-- A meaning of the kernels over values `V`: from the scalar arguments and the inputs, of
which some are absent, to the outputs. -/
abbrev Meaning (V : Type) := CKernelId → List Int → List (Option V) → Nat → V

/-- What input `n` of op `i` reads, for given values of the ops and of the slots. -/
def readBy {V : Type} (tg : TraceGraph) (slots : Nat → V) (value : Nat → Nat → V) (i : Nat)
    (te : KernelEntry) (n : Nat) : Option V :=
  match tg.sourceAt te n with
  | some (.op k) => some (value k (tg.portOf i n))
  | some (.slot sid) => some (slots sid)
  | none => none

/-- The outputs of the ops before op `n`, and `slots 0` for any other op. -/
def valuesBelow {V : Type} (tg : TraceGraph) (run : Meaning V) (slots : Nat → V) :
    Nat → Nat → Nat → V
  | 0 => fun _ _ => slots 0
  | n + 1 => fun i port =>
    if i = n then
      match tg.ops[i]? with
      | some te => run te.kernelId te.scalarArgs
          ((range te.numInputs).map
            (tg.readBy slots (valuesBelow tg run slots n) i te)) port
      | none => slots 0
    else valuesBelow tg run slots n i port

def value {V : Type} (tg : TraceGraph) (run : Meaning V) (slots : Nat → V) (i port : Nat) : V :=
  tg.valuesBelow run slots (i + 1) i port

/-- Two ops with one value, whatever the kernels mean and the slots hold. -/
def SameValue (i j : Nat) : Prop :=
  ∀ (V : Type) (run : Meaning V) (slots : Nat → V), tg.value run slots i = tg.value run slots j

def Source.outer : Source → Option Nat
  | .op _ => none
  | .slot sid => some sid

/-- Two ops are the same computation: the kernel, the scalar arguments and, input by input, the
tensor that is read are the same.  Two reads of an op are the same if the ops are the same
computation and the outputs are the same. -/
inductive SameComputation : Nat → Nat → Prop
  | refl (i : Nat) : SameComputation i i
  | twin {i j : Nat} {te te' : KernelEntry} (hte : tg.ops[i]? = some te)
      (hte' : tg.ops[j]? = some te') (kernel : te.kernelId = te'.kernelId)
      (scalars : te.scalarArgs = te'.scalarArgs) (numInputs : te.numInputs = te'.numInputs)
      (slots : ∀ n, n < te.numInputs →
        (tg.sourceAt te n).map outer = (tg.sourceAt te' n).map outer)
      (ports : ∀ n k, n < te.numInputs → tg.sourceAt te n = some (.op k) →
        tg.portOf i n = tg.portOf j n)
      (ops : ∀ n k k', n < te.numInputs → tg.sourceAt te n = some (.op k) →
        tg.sourceAt te' n = some (.op k') → SameComputation k k') :
      SameComputation i j

/-- Two ops that the pass cannot tell apart. -/
inductive Alike : Nat → Nat → Prop
  | refl (i : Nat) : Alike i i
  | twin {i j : Nat} {te te' : KernelEntry} (hte : tg.ops[i]? = some te)
      (hte' : tg.ops[j]? = some te')
      (kind : classifyNodeKind te.kernelId = classifyNodeKind te'.kernelId)
      (unchanged : classifyNodeKind te.kernelId ≠ .mutation) (shape : shapeOf te = shapeOf te')
      (kernel : classifyNodeKind te.kernelId = .external → te.kernelId = te'.kernelId)
      (slots : (tg.sources te).map outer = (tg.sources te').map outer)
      (ops : ∀ n k k' : Nat, (tg.sources te)[n]? = some (op k) →
        (tg.sources te')[n]? = some (op k') → Alike k k') :
      Alike i j

theorem outer_cases {s s' : Option Source} (h : s.map outer = s'.map outer) :
    (s = none ∧ s' = none) ∨ (∃ k k', s = some (.op k) ∧ s' = some (.op k')) ∨
      ∃ sid, s = some (.slot sid) ∧ s' = some (.slot sid) := by
  rcases s with _ | ⟨k | sid⟩ <;> rcases s' with _ | ⟨k' | sid'⟩ <;> simp_all [outer]

section Values
variable {tg : TraceGraph} {V : Type} {run : Meaning V} {slots : Nat → V}

variable {i k n j : Nat} {te : KernelEntry}

theorem sourceAt_cases {source : Source} (h : tg.sourceAt te n = some source) :
    (∃ k, source = .op k ∧ te.traceIndex n = some k) ∨
      ∃ sid, source = .slot sid ∧ sid ∈ tg.externalSlots := by
  have hslot : (if te.slotId n ∈ tg.externalSlots then some (slot (te.slotId n)) else none) =
      some source → ∃ sid, source = .slot sid ∧ sid ∈ tg.externalSlots := by
    intro h
    split at h
    · exact ⟨_, (Option.some.inj h).symm, by assumption⟩
    · cases h
  rw [sourceAt] at h
  cases hidx : te.traceIndex n with
  | none =>
    rw [hidx] at h
    exact .inr (hslot h)
  | some k =>
    rw [hidx] at h
    dsimp only at h
    split at h
    · exact .inl ⟨k, (Option.some.inj h).symm, rfl⟩
    · exact .inr (hslot h)

theorem op_index_lt (hte : tg.ops[i]? = some te) : i < tg.ops.length :=
  (List.getElem?_eq_some_iff.mp hte).1

theorem source_lt (hte : tg.ops[i]? = some te) (h : tg.sourceAt te n = some (.op k)) : k < i := by
  rcases sourceAt_cases h with ⟨k', heq, hidx⟩ | ⟨sid, heq, -⟩
  · injection heq with heq
    exact tg.producer_lt i te n k hte (heq ▸ hidx)
  · cases heq

theorem valuesBelow_of_lt (h : i < n) : tg.valuesBelow run slots n i = tg.value run slots i := by
  induction n with
  | zero => exact absurd h (Nat.not_lt_zero i)
  | succ n ih =>
    rcases Nat.lt_succ_iff_lt_or_eq.mp h with hlt | rfl
    · rw [← ih hlt]
      funext port
      exact if_neg hlt.ne
    · rfl

theorem readBy_congr {value value' : Nat → Nat → V}
    (h : ∀ k, tg.sourceAt te n = some (.op k) → value k = value' k) :
    tg.readBy slots value i te n = tg.readBy slots value' i te n := by
  rw [readBy, readBy]
  rcases hs : tg.sourceAt te n with _ | ⟨k | sid⟩
  · rfl
  · simp only [h k hs]
  · rfl

/-- **The value of an op**, by the values of the ops that it reads. -/
theorem value_eq (hte : tg.ops[i]? = some te) (port : Nat) :
    tg.value run slots i port = run te.kernelId te.scalarArgs
      ((range te.numInputs).map (tg.readBy slots (tg.value run slots) i te)) port := by
  have hreads : tg.readBy slots (tg.valuesBelow run slots i) i te =
      tg.readBy slots (tg.value run slots) i te := by
    funext n
    exact readBy_congr fun k hk => valuesBelow_of_lt (source_lt hte hk)
  rw [value, valuesBelow]
  simp only [if_pos, hte, hreads]

/-- **The same computation has the same value.** -/
theorem SameComputation.sameValue (h : tg.SameComputation i j) : tg.SameValue i j := by
  intro V run slots
  induction h with
  | refl i => rfl
  | @twin i j te te' hte hte' kernel scalars numInputs outer ports ops ih =>
    funext port
    have hreads : (range te.numInputs).map (tg.readBy slots (tg.value run slots) i te) =
        (range te.numInputs).map (tg.readBy slots (tg.value run slots) j te') := by
      refine map_congr_left fun n hn => ?_
      have hn := mem_range.mp hn
      rw [readBy, readBy]
      rcases outer_cases (outer n hn) with ⟨hs, hs'⟩ | ⟨k, k', hs, hs'⟩ | ⟨sid, hs, hs'⟩
      · rw [hs, hs']
      · rw [hs, hs']
        simp only [ih n k k' hn hs hs', ports n k hn hs]
      · rw [hs, hs']
    rw [value_eq hte, value_eq hte', kernel, scalars, hreads, numInputs]

/-- The values of the meaning that tells most apart. -/
inductive Term where
  | slot (sid : Nat)
  | output (kernelId : CKernelId) (scalarArgs : List Int) (inputs : List (Option Term)) (port : Nat)

abbrev term (i port : Nat) : Term := tg.value Term.output Term.slot i port

/-- What an input reads, as a term. -/
abbrev termRead (i : Nat) (te : KernelEntry) (n : Nat) : Option Term :=
  tg.readBy Term.slot tg.term i te n

theorem term_inj {k' port port' : Nat} (hk : k < tg.ops.length) (hk' : k' < tg.ops.length)
    (h : tg.term k port = tg.term k' port') : port = port' ∧ tg.term k = tg.term k' := by
  have hte := getElem?_eq_getElem hk
  have hte' := getElem?_eq_getElem hk'
  rw [term, term, value_eq hte, value_eq hte'] at h
  injection h with hker hscal hinp hport
  refine ⟨hport, ?_⟩
  funext p
  rw [term, term, value_eq hte, value_eq hte', hker, hscal, hinp]

theorem termRead_cases {te' : KernelEntry} (hte : tg.ops[i]? = some te)
    (hte' : tg.ops[j]? = some te') (h : tg.termRead i te n = tg.termRead j te' n) :
    (tg.sourceAt te n).map outer = (tg.sourceAt te' n).map outer ∧
      ∀ k k', tg.sourceAt te n = some (.op k) → tg.sourceAt te' n = some (.op k') →
        tg.portOf i n = tg.portOf j n ∧ tg.term k = tg.term k' := by
  have hlt : ∀ {m k : Nat} {e : KernelEntry}, tg.ops[m]? = some e →
      tg.sourceAt e n = some (.op k) → k < tg.ops.length := fun he hk =>
    lt_trans (source_lt he hk) (op_index_lt he)
  have hno : ∀ {k port : Nat} {sid : Nat}, k < tg.ops.length → tg.term k port ≠ Term.slot sid := by
    intro k port sid hk
    rw [term, value_eq (getElem?_eq_getElem hk)]
    exact nofun
  rw [termRead, termRead, readBy, readBy] at h
  rcases hs : tg.sourceAt te n with _ | ⟨k | sid⟩ <;>
    rcases hs' : tg.sourceAt te' n with _ | ⟨k' | sid'⟩ <;>
    simp only [hs, hs', reduceCtorEq, Option.some.injEq] at h
  · exact ⟨rfl, nofun⟩
  · obtain ⟨hport, hterm⟩ := term_inj (hlt hte hs) (hlt hte' hs') h
    refine ⟨rfl, ?_⟩
    rintro _ _ ⟨⟩ ⟨⟩
    exact ⟨hport, hterm⟩
  · exact absurd h (hno (hlt hte hs))
  · exact absurd h.symm (hno (hlt hte' hs'))
  · injection h with hsid
    rw [hsid]
    exact ⟨rfl, nofun⟩

/-- **Two ops with one value under every meaning are the same computation.** -/
theorem SameValue.sameComputation (hi : i < tg.ops.length) (hj : j < tg.ops.length)
    (h : tg.SameValue i j) : tg.SameComputation i j := by
  have hterm : tg.term i = tg.term j := h Term Term.output Term.slot
  clear h
  -- the term of an op holds the terms of what it reads
  induction i using Nat.strongRecOn generalizing j with
  | ind i ih =>
    have hte := getElem?_eq_getElem hi
    have hte' := getElem?_eq_getElem hj
    have heq := congrFun hterm 0
    rw [term, term, value_eq hte, value_eq hte'] at heq
    injection heq with hker hscal hinp
    have hlen : (tg.ops[i]).numInputs = (tg.ops[j]).numInputs := by
      simpa using congrArg length hinp
    have hread : ∀ n, n < (tg.ops[i]).numInputs →
        tg.termRead i tg.ops[i] n = tg.termRead j tg.ops[j] n := by
      intro n hn
      rw [← hlen] at hinp
      exact map_inj_left.mp hinp n (mem_range.mpr hn)
    refine .twin hte hte' hker hscal hlen (fun n hn => ?_) (fun n k hn hs => ?_)
      fun n k k' hn hs hs' => ?_
    · exact (termRead_cases hte hte' (hread n hn)).1
    · obtain ⟨hout, hops⟩ := termRead_cases hte hte' (hread n hn)
      rcases outer_cases hout with ⟨hs₁, -⟩ | ⟨_, k', -, hs'⟩ | ⟨sid, hs₁, -⟩
      · cases hs.symm.trans hs₁
      · exact (hops k k' hs hs').1
      · cases hs.symm.trans hs₁
    · have hk := source_lt hte hs
      have hk' := source_lt hte' hs'
      exact ih k hk (hk.trans hi) (hk'.trans hj)
        ((termRead_cases hte hte' (hread n hn)).2 k k' hs hs').2

end Values

/-! ### The pass on a lowered graph -/

theorem classifyNodeKind_ne_input (kid : CKernelId) : classifyNodeKind kid ≠ .input := by
  unfold classifyNodeKind
  repeat' split
  all_goals exact nofun

section Pass
variable {tg : TraceGraph} {g : Graph Int} {addrs : Addresses Int}

variable {n sid i x j : Nat} {te te' : KernelEntry}

theorem source_cases {source : Source} (hte : tg.ops[i]? = some te) (h : source ∈ tg.sources te) :
    (∃ k, source = .op k ∧ k < i) ∨ ∃ sid, source = .slot sid ∧ sid ∈ tg.externalSlots := by
  obtain ⟨n, -, hn⟩ := mem_filterMap.mp h
  rcases sourceAt_cases hn with ⟨k, rfl, -⟩ | hslot
  · exact .inl ⟨k, rfl, source_lt hte hn⟩
  · exact .inr hslot

theorem slot_node (h : sid ∈ tg.externalSlots) :
    ∃ id, tg.first.node sid = some id ∧ id < tg.base := by
  obtain ⟨id, hid⟩ := Option.isSome_iff_exists.mp ((tg.externals_isSome {} sid).mpr h)
  exact ⟨id, hid, ((tg.externals_of {}).node_lt sid id hid).2⟩

section
variable (h : tg.Lowered g)
include h

theorem Lowered.op_of_ge (hx : x < g.numNodes) (hge : tg.base ≤ x) :
    ∃ te, tg.ops[x - tg.base]? = some te ∧ (g.node x).unused = opNode te (tg.inputNodes te) := by
  have hi : x - tg.base < tg.ops.length := by
    rw [h.numNodes] at hx
    omega
  have hte := getElem?_eq_getElem hi
  have hnode := h.ops _ _ hte
  rw [Nat.add_sub_cancel' hge] at hnode
  exact ⟨_, hte, hnode⟩

theorem Lowered.op_lt (hte : tg.ops[i]? = some te) : tg.base + i < g.numNodes := by
  rw [h.numNodes]
  exact Nat.add_lt_add_left (op_index_lt hte) _

theorem Lowered.inputs_lt (hx : x < g.numNodes) : ∀ d ∈ (g.node x).inputs, d < x := by
  intro d hd
  have hd' : d ∈ (g.node x).unused.inputs := hd
  rcases lt_or_ge x tg.base with hlt | hge
  · obtain ⟨dtype, dev, size, heq⟩ := h.inputs x hlt
    rw [heq] at hd'
    cases hd'
  · obtain ⟨te, hte, hnode⟩ := h.op_of_ge hx hge
    rw [hnode] at hd'
    obtain ⟨source, hsour, rfl⟩ := mem_map.mp hd'
    rcases source_cases hte hsour with ⟨k, rfl, hk⟩ | ⟨sid, rfl, hsid⟩
    · show tg.base + k < x
      omega
    · obtain ⟨id, hid, hlt⟩ := slot_node hsid
      show (tg.first.node sid).getD 0 < x
      rw [hid]
      exact hlt.trans_le hge

theorem Lowered.dead (hx : x < g.numNodes) : (g.node x).dead = false := by
  show (g.node x).unused.dead = false
  rcases lt_or_ge x tg.base with hlt | hge
  · obtain ⟨dtype, dev, size, heq⟩ := h.inputs x hlt
    rw [heq]
  · obtain ⟨te, -, hnode⟩ := h.op_of_ge hx hge
    rw [hnode]
    rfl

theorem Lowered.mem_liveNodes : x ∈ g.liveNodes ↔ x < g.numNodes := by
  rw [Graph.mem_liveNodes]
  refine ⟨fun hx => hx.1, fun hx => ⟨hx, ?_⟩⟩
  rw [Graph.live, h.dead hx]
  rfl

theorem Lowered.not_skipped (hte : tg.ops[i]? = some te) :
    g.skipped (tg.base + i) = false ↔ classifyNodeKind te.kernelId ≠ .mutation := by
  have hkind : (g.node (tg.base + i)).kind = classifyNodeKind te.kernelId :=
    congrArg kind (h.ops i te hte)
  rw [Graph.skipped, hkind, decide_eq_false (classifyNodeKind_ne_input _), Bool.false_or,
    decide_eq_false_iff_not]

theorem Lowered.visited_op (hx : x < g.numNodes) (hskip : g.skipped x = false) :
    ∃ i te, x = tg.base + i ∧ tg.ops[i]? = some te ∧
      (g.node x).unused = opNode te (tg.inputNodes te) := by
  rcases h.node_cases hx with ⟨hkind, -⟩ | hop
  · rw [Graph.skipped, hkind] at hskip
    cases hskip
  · exact hop

theorem Lowered.hash_iff (hte : tg.ops[i]? = some te) (canonical : Nat → Nat) :
    (∃ hash, (g.node (tg.base + i)).cseHash addrs canonical = .ok hash) ↔
      classifyNodeKind te.kernelId ≠ .reduction := by
  have hnode := h.ops i te hte
  constructor
  · rintro ⟨hash, hhash⟩ hkind
    have hbody : (g.node (tg.base + i)).unused.body = .external
        { pythonKernelName := some (ckernelName te.kernelId)
          cppKernelName := some (ckernelName te.kernelId) } := by
      rw [hnode]
      simp [opNode, hkind]
    have hred : (g.node (tg.base + i)).kind = .reduction :=
      (congrArg kind hnode).trans hkind
    obtain ⟨e, he⟩ := cseHash_fault (.inr hred) hbody
    rw [hhash] at he
    cases he
  · intro hkind
    have hhash : (g.node (tg.base + i)).unused.Hashable := hnode ▸ opNode_hashable hkind
    exact cseHash_ok hhash

theorem Lowered.uniformBodies : g.UniformBodies addrs := by
  intro x y canonical hx hy hsx hsy hhx hhy hkind hcomp
  obtain ⟨i, te, rfl, hte, hnode⟩ := h.visited_op hx hsx
  obtain ⟨j, te', rfl, hte', hnode'⟩ := h.visited_op hy hsy
  have hred := (h.hash_iff hte canonical).mp hhx
  have hkin : classifyNodeKind te.kernelId = classifyNodeKind te'.kernelId :=
    ((congrArg kind hnode).symm.trans hkind).trans (congrArg kind hnode')
  by_cases hp : classifyNodeKind te.kernelId = .pointwise
  · show (g.node (tg.base + i)).unused.bodyKey = (g.node (tg.base + j)).unused.bodyKey
    rw [hnode, hnode']
    simp [bodyKey, opNode, ← hkin, hp]
  · refine absurd ⟨?_, ?_⟩ hcomp
    · have hc : (g.node (tg.base + i)).unused.Comparable := hnode ▸ opNode_comparable hp hred
      exact hc
    · have hc : (g.node (tg.base + j)).unused.Comparable :=
        hnode' ▸ opNode_comparable (hkin ▸ hp) (hkin ▸ hred)
      exact hc

end

/-! ### Keys of ops -/

/-- **When two ops have one key.** -/
theorem Lowered.key_eq_iff (h : tg.Lowered g)
    (hte : tg.ops[i]? = some te) (hte' : tg.ops[j]? = some te')
    (hred : classifyNodeKind te.kernelId ≠ .reduction) (canonical : Nat → Nat) :
    g.key canonical (tg.base + i) = g.key canonical (tg.base + j) ↔
      classifyNodeKind te.kernelId = classifyNodeKind te'.kernelId ∧ shapeOf te = shapeOf te' ∧
      (classifyNodeKind te.kernelId = .external → te.kernelId = te'.kernelId) ∧
      (tg.inputNodes te).map canonical = (tg.inputNodes te').map canonical := by
  have hkey : ∀ {k : Nat} {e : KernelEntry}, tg.ops[k]? = some e → g.key canonical (tg.base + k) =
        ((opNode e (tg.inputNodes e)).shell canonical, (opNode e (tg.inputNodes e)).bodyKey) := by
    intro k e he
    show ((g.node (tg.base + k)).unused.shell canonical, (g.node (tg.base + k)).unused.bodyKey) = _
    rw [h.ops k e he]
  rw [hkey hte, hkey hte', Prod.mk.injEq]
  constructor
  · rintro ⟨hshell, hbody⟩
    have hkin : classifyNodeKind te.kernelId = classifyNodeKind te'.kernelId :=
      congrArg Shell.kind hshell
    have hdims := congrArg Shell.dims hshell
    simp only [shell, opNode_dims] at hdims
    have hdty : (shapeOf te).1 = (shapeOf te').1 := congrArg Shell.dtype hshell
    have hdev : (shapeOf te).2.1 = (shapeOf te').2.1 := congrArg Shell.deviceIdx hshell
    refine ⟨hkin, Prod.ext hdty (Prod.ext hdev hdims), fun hext => ?_,
      congrArg Shell.inputs hshell⟩
    have hnam := congrArg BodyKey.external hbody
    simp only [bodyKey, opNode, ← hkin, hext, externKey] at hnam
    simp at hnam
    exact ckernelName_injective hnam
  · rintro ⟨hkin, hshape, hker, hinp⟩
    have hlen : (tg.inputNodes te).length = (tg.inputNodes te').length := by
      simpa using congrArg length hinp
    refine ⟨?_, ?_⟩
    · simp only [shell, dims, opNode, hkin, hshape, hinp, hlen]
    · simp only [bodyKey, opNode, ← hkin, hred, or_false, if_false]
      by_cases hp : classifyNodeKind te.kernelId = .pointwise
      · simp [hp]
      · by_cases hext : classifyNodeKind te.kernelId = .external
        · simp [hker hext]
        · simp [hp, hext]

/-- The input nodes stand for themselves, and op nodes are replaced by op nodes. -/
structure OpsToOps (canonical : Nat → Nat) : Prop where
  inputs : ∀ x, x < tg.base → canonical x = x
  ops : ∀ k, k < tg.ops.length → tg.base ≤ canonical (tg.base + k)

variable {canonical : Nat → Nat}

theorem OpsToOps.source_eq_iff (h : tg.OpsToOps canonical) (hte : tg.ops[i]? = some te)
    (hte' : tg.ops[j]? = some te')
    {source source' : Source} (hs : source ∈ tg.sources te) (hs' : source' ∈ tg.sources te') :
    canonical (source.node tg.first.node tg.base) = canonical (source'.node tg.first.node tg.base) ↔
      source.outer = source'.outer ∧ ∀ k k', source = .op k → source' = .op k' →
        canonical (tg.base + k) = canonical (tg.base + k') := by
  have hslot : ∀ {sid : Nat}, sid ∈ tg.externalSlots → ∃ id, tg.first.node sid = some id ∧
      canonical ((slot sid).node tg.first.node tg.base) = id ∧ id < tg.base := by
    intro sid hsid
    obtain ⟨id, hid, hid'⟩ := slot_node hsid
    refine ⟨id, hid, ?_, hid'⟩
    rw [node, hid]
    exact h.inputs id hid'
  rcases source_cases hte hs with ⟨k, rfl, hk⟩ | ⟨sid, rfl, hsid⟩
  · have hge := h.ops k (hk.trans (op_index_lt hte))
    rcases source_cases hte' hs' with ⟨k', rfl, hk'⟩ | ⟨sid', rfl, hsid'⟩
    · refine ⟨fun heq => ⟨rfl, fun k₁ k₂ h₁ h₂ => ?_⟩, fun hsame => hsame.2 k k' rfl rfl⟩
      injection h₁ with h₁
      injection h₂ with h₂
      rwa [← h₁, ← h₂]
    · obtain ⟨id, -, hid, hidlt⟩ := hslot hsid'
      refine ⟨fun heq => ?_, fun hsame => by cases hsame.1⟩
      rw [hid] at heq
      exact absurd (heq ▸ hge) hidlt.not_ge
  · obtain ⟨id, hnode, hid, hidlt⟩ := hslot hsid
    rcases source_cases hte' hs' with ⟨k', rfl, hk'⟩ | ⟨sid', rfl, hsid'⟩
    · have hge := h.ops k' (hk'.trans (op_index_lt hte'))
      refine ⟨fun heq => ?_, fun hsame => by cases hsame.1⟩
      rw [hid] at heq
      exact absurd (heq ▸ hge) hidlt.not_ge
    · obtain ⟨id', hnode', hid', -⟩ := hslot hsid'
      rw [hid, hid']
      constructor
      · rintro rfl
        rw [(tg.externals_of {}).node_inj sid sid' id hnode hnode']
        exact ⟨rfl, by rintro _ _ ⟨⟩⟩
      · rintro ⟨hsame, -⟩
        have hsid : sid = sid' := Option.some.inj hsame
        rw [hsid, hnode'] at hnode
        exact (Option.some.inj hnode).symm

/-- **When two ops read the same representatives.** -/
theorem OpsToOps.inputs_eq_iff (h : tg.OpsToOps canonical) (hte : tg.ops[i]? = some te)
    (hte' : tg.ops[j]? = some te') :
    (tg.inputNodes te).map canonical = (tg.inputNodes te').map canonical ↔
      (tg.sources te).map outer = (tg.sources te').map outer ∧
      ∀ n k k' : Nat, (tg.sources te)[n]? = some (op k) →
        (tg.sources te')[n]? = some (op k') →
        canonical (tg.base + k) = canonical (tg.base + k') := by
  have hpos : ∀ {α : Type} (f : Source → α), (tg.sources te).map f = (tg.sources te').map f ↔
        ∀ n : Nat, ((tg.sources te)[n]?).map f = ((tg.sources te')[n]?).map f := by
    intro α f
    simp only [List.ext_getElem?_iff, getElem?_map]
  rw [inputNodes, inputNodes, map_map, map_map, hpos, hpos, ← forall_and]
  refine forall_congr' fun n => ?_
  rcases hs : (tg.sources te)[n]? with _ | source <;>
    rcases hs' : (tg.sources te')[n]? with _ | source'
  · exact ⟨fun _ => ⟨rfl, by rintro _ _ ⟨⟩⟩, fun _ => rfl⟩
  · exact ⟨by rintro ⟨⟩, fun hsame => by cases hsame.1⟩
  · exact ⟨by rintro ⟨⟩, fun hsame => by cases hsame.1⟩
  · simp only [Option.map_some, Option.some.injEq, Function.comp_apply]
    exact h.source_eq_iff hte hte' (mem_of_getElem? hs) (mem_of_getElem? hs')

/-! ### Which ops have one representative -/

section Merged
variable {seen : List Nat} {canonical : Nat → Nat}
  {m : OpenAddressing.BoundedMap (Graph.CseKey Int) Nat}

theorem Lowered.canonical_op (h : tg.Lowered g) (hm : g.Replaced addrs seen canonical m)
    (hseen : ∀ x ∈ seen, x < g.numNodes ∧ g.skipped x = false) (hi : i < tg.ops.length) :
    ∃ k, k < tg.ops.length ∧ canonical (tg.base + i) = tg.base + k ∧
      canonical (tg.base + k) = tg.base + k := by
  by_cases hin : tg.base + i ∈ seen
  · obtain ⟨hkey, heq⟩ := hm.mapped _ hin
    obtain ⟨hval, hself, -⟩ := hm.val _ hkey
    obtain ⟨hlt, hskip⟩ := hseen _ hval
    obtain ⟨k, te, hk, hte, -⟩ := h.visited_op hlt hskip
    rw [← heq] at hk hself
    exact ⟨k, op_index_lt hte, hk, by rwa [← hk]⟩
  · exact ⟨i, hi, hm.alone _ hin, hm.alone _ hin⟩

theorem Lowered.opsToOps (h : tg.Lowered g) (hm : g.Replaced addrs seen canonical m)
    (hseen : ∀ x ∈ seen, x < g.numNodes ∧ g.skipped x = false) : tg.OpsToOps canonical := by
  refine ⟨fun x hx => hm.alone x fun hin => ?_, fun k hk => ?_⟩
  · obtain ⟨dtype, dev, size, heq⟩ := h.inputs x hx
    have hkind : (g.node x).kind = .input := congrArg kind heq
    have hskip := (hseen x hin).2
    rw [Graph.skipped, hkind] at hskip
    cases hskip
  · obtain ⟨i, -, heq, -⟩ := h.canonical_op hm hseen hk
    rw [heq]
    exact le_self_add

theorem Lowered.merged_cases (hm : g.Replaced addrs seen canonical m) {x y : Nat}
    (heq : canonical x = canonical y) :
    x = y ∨ x ∈ seen ∧ y ∈ seen ∧ g.key canonical x = g.key canonical y := by
  -- a node that was not seen is nobody's representative
  have hself : ∀ {x y : Nat}, x ∉ seen → canonical x = canonical y → x = y := by
    intro x y hx heq
    rw [hm.alone x hx] at heq
    by_cases hy : y ∈ seen
    · obtain ⟨hkey, hval⟩ := hm.mapped y hy
      exact absurd (heq.trans hval ▸ (hm.val _ hkey).1) hx
    · rwa [hm.alone y hy] at heq
  by_cases hx : x ∈ seen
  · by_cases hy : y ∈ seen
    · exact .inr ⟨hx, hy, (hm.key_eq_iff hx hy).mp heq⟩
    · exact .inl (hself hy heq.symm).symm
  · exact .inl (hself hx heq)

theorem Lowered.alike_of_key (h : tg.Lowered g) (hops : tg.OpsToOps canonical) {i j : Nat}
    {te te' : KernelEntry} (hte : tg.ops[i]? = some te) (hte' : tg.ops[j]? = some te')
    (hred : classifyNodeKind te.kernelId ≠ .reduction) (hskip : g.skipped (tg.base + i) = false)
    (hkey : g.key canonical (tg.base + i) = g.key canonical (tg.base + j))
    (ih : ∀ k k', k < i → k' < j → canonical (tg.base + k) = canonical (tg.base + k') →
      tg.Alike k k') : tg.Alike i j := by
  obtain ⟨hkind, hshape, hker, hinp⟩ := (h.key_eq_iff hte hte' hred canonical).mp hkey
  obtain ⟨hslots, hreads⟩ := (hops.inputs_eq_iff hte hte').mp hinp
  have hmut := (h.not_skipped hte).mp hskip
  have hlt : ∀ {l n k : Nat} {e : KernelEntry}, tg.ops[l]? = some e →
      (tg.sources e)[n]? = some (op k) → k < l := by
    intro l n k e he hk
    rcases source_cases he (mem_of_getElem? hk) with ⟨k', heq, hk'⟩ | ⟨sid, heq, -⟩
    · injection heq with heq
      rwa [heq]
    · cases heq
  exact .twin hte hte' hkind hmut hshape hker hslots fun n k k' hk hk' =>
    ih k k' (hlt hte hk) (hlt hte' hk') (hreads n k k' hk hk')

/-- **Ops with one representative are alike.** -/
theorem Lowered.alike (h : tg.Lowered g) (hm : g.Replaced addrs seen canonical m)
    (hseen : ∀ x ∈ seen, x < g.numNodes ∧ g.skipped x = false) {i j : Nat} (hi : i < tg.ops.length)
    (hj : j < tg.ops.length) (heq : canonical (tg.base + i) = canonical (tg.base + j)) :
    tg.Alike i j := by
  have hops := h.opsToOps hm hseen
  induction i using Nat.strongRecOn generalizing j with
  | ind i ih =>
    rcases Lowered.merged_cases hm heq with hsame | ⟨hin, -, hkey⟩
    · rw [Nat.add_left_cancel hsame]
      exact .refl j
    · have hte := getElem?_eq_getElem hi
      have hred := (h.hash_iff hte canonical).mp (hm.hashed _ hin)
      refine h.alike_of_key hops hte (getElem?_eq_getElem hj) hred (hseen _ hin).2 hkey ?_
      intro k k' hk hk' hkk
      exact ih k hk (hk.trans hi) (hk'.trans hj) hkk

/-- **Alike ops have one representative** when the pass has visited all ops. -/
theorem Lowered.merges (h : tg.Lowered g) (hm : g.Replaced addrs seen canonical m)
    (hseen : ∀ x, x ∈ seen ↔ x < g.numNodes ∧ g.skipped x = false) {i j : Nat}
    (halike : tg.Alike i j) : canonical (tg.base + i) = canonical (tg.base + j) := by
  have hops := h.opsToOps hm fun x hx => (hseen x).mp hx
  induction halike with
  | refl i => rfl
  | @twin i j te te' hte hte' kind unchanged shape kernel slots ops ih =>
    have hin := (hseen _).mpr ⟨h.op_lt hte, (h.not_skipped hte).mpr unchanged⟩
    have hin' := (hseen _).mpr ⟨h.op_lt hte', (h.not_skipped hte').mpr (kind ▸ unchanged)⟩
    have hred := (h.hash_iff hte canonical).mp (hm.hashed _ hin)
    rw [hm.key_eq_iff hin hin', h.key_eq_iff hte hte' hred]
    exact ⟨kind, shape, kernel, (hops.inputs_eq_iff hte hte').mpr ⟨slots, ih⟩⟩

end Merged

/-! ### The result of the pass -/

/-- Input `n` of two ops reads one tensor, up to the ops that are merged. -/
def SameRead (canonical : Nat → Nat) (i j : Nat) (te te' : KernelEntry)
    (n : Nat) : Prop :=
  match tg.sourceAt te n, tg.sourceAt te' n with
  | some (.op k), some (.op k') =>
    canonical (tg.base + k) = canonical (tg.base + k') ∧ tg.portOf i n = tg.portOf j n
  | source, source' => source = source'

/-- **What the pass should do**: two ops that are merged have one kernel and read one tensor at
each input, and they have one value.  Then every op has its value from the inputs that the
pass gives it, and each output of the graph has the value of the op that was recorded. -/
structure MergesSame (g' : Graph Int) (canonical : Nat → Nat) : Prop where
  reads : ∀ i j te te', tg.ops[i]? = some te → tg.ops[j]? = some te' →
    canonical (tg.base + i) = canonical (tg.base + j) →
    te.kernelId = te'.kernelId ∧ te.numInputs = te'.numInputs ∧
      ∀ n, n < te.numInputs → tg.SameRead canonical i j te te' n
  values : ∀ i j, i < tg.ops.length → j < tg.ops.length →
    canonical (tg.base + i) = canonical (tg.base + j) → tg.SameValue i j
  resolved : ∀ (V : Type) (run : Meaning V) (slots : Nat → V) (i : Nat) (te : KernelEntry)
    (port : Nat), tg.ops[i]? = some te → tg.value run slots i port =
      run te.kernelId te.scalarArgs ((range te.numInputs).map (tg.readBy slots
        (fun k => tg.value run slots (canonical (tg.base + k) - tg.base)) i te)) port
  outputs : Forall₂ (fun id i => ∃ k, id = tg.base + k ∧ tg.SameValue k i) g'.outputIds
    tg.outputs

/-- No op is a reduction, a pointwise op is alike to no other op, and alike ops are the same
computation. -/
structure Separated : Prop where
  hashes : ∀ te ∈ tg.ops, classifyNodeKind te.kernelId ≠ .reduction
  pointwise : ∀ i j te, tg.ops[i]? = some te → classifyNodeKind te.kernelId = .pointwise →
    j < tg.ops.length → tg.Alike i j → i = j
  same : ∀ i j, i < tg.ops.length → j < tg.ops.length → tg.Alike i j → tg.SameComputation i j

theorem kept_congr {α β : Type} {f f' : Nat → Option α} {r : α → β} {l : List Nat}
    (hsome : ∀ n ∈ l, (f n).isSome = (f' n).isSome)
    (h : (l.filterMap f).map r = (l.filterMap f').map r) : ∀ n ∈ l, (f n).map r = (f' n).map r := by
  induction l with
  | nil => exact forall_mem_nil _
  | cons a l ih =>
    rw [forall_mem_cons] at hsome ⊢
    obtain ⟨ha, hrest⟩ := hsome
    rcases hf : f a with _ | x <;> rcases hf' : f' a with _ | x' <;>
      simp only [hf, hf', Option.isSome_none, Option.isSome_some, reduceCtorEq] at ha
    · rw [filterMap_cons_none hf, filterMap_cons_none hf'] at h
      exact ⟨rfl, ih hrest h⟩
    · rw [filterMap_cons_some hf, filterMap_cons_some hf', map_cons, map_cons, cons.injEq] at h
      exact ⟨congrArg some h.1, ih hrest h.2⟩

theorem SameRead.refl : tg.SameRead canonical i i te te n := by
  rw [SameRead]
  rcases tg.sourceAt te n with _ | ⟨k | sid⟩
  · rfl
  · exact ⟨rfl, rfl⟩
  · rfl

variable {m : OpenAddressing.BoundedMap (Graph.CseKey Int) Nat}

variable (h : tg.Lowered g)
include h

theorem Lowered.sameReads {seen : List Nat} (hm : g.Replaced addrs seen canonical m)
    (hte : tg.ops[i]? = some te) (hte' : tg.ops[j]? = some te')
    (heq : canonical (tg.base + i) = canonical (tg.base + j)) (hsame : tg.SameComputation i j) :
    te.kernelId = te'.kernelId ∧ te.numInputs = te'.numInputs ∧
      ∀ n, n < te.numInputs → tg.SameRead canonical i j te te' n := by
  rcases Lowered.merged_cases hm heq with hij | ⟨hin, -, hkey⟩
  · obtain rfl := Nat.add_left_cancel hij
    cases hte.symm.trans hte'
    exact ⟨rfl, rfl, fun _ _ => .refl⟩
  have hred := (h.hash_iff hte canonical).mp (hm.hashed _ hin)
  obtain ⟨-, -, -, hinp⟩ := (h.key_eq_iff hte hte' hred canonical).mp hkey
  cases hsame with
  | refl =>
    cases hte.symm.trans hte'
    exact ⟨rfl, rfl, fun _ _ => .refl⟩
  | twin hte₁ hte₁' kernel scalars numInputs slots ports ops =>
    cases hte.symm.trans hte₁
    cases hte'.symm.trans hte₁'
    refine ⟨kernel, numInputs, fun n hn => ?_⟩
    -- both keep the inputs at the same positions, so the lists agree position by position
    have hat : ∀ n ∈ range te.numInputs,
        (tg.sourceAt te n).map (canonical ∘ node tg.first.node tg.base) =
          (tg.sourceAt te' n).map (canonical ∘ node tg.first.node tg.base) := by
      refine kept_congr (fun n hn => ?_) ?_
      · have := congrArg Option.isSome (slots n (mem_range.mp hn))
        simpa using this
      · rw [inputNodes, inputNodes, map_map, map_map, sources, sources, ← numInputs]
          at hinp
        exact hinp
    have hcan := hat n (mem_range.mpr hn)
    rw [SameRead]
    rcases outer_cases (slots n hn) with ⟨hs, hs'⟩ | ⟨k, k', hs, hs'⟩ | ⟨sid, hs, hs'⟩
    · rw [hs, hs']
    · rw [hs, hs'] at hcan ⊢
      exact ⟨Option.some.inj hcan, ports n k hn hs⟩
    · rw [hs, hs']

theorem Lowered.liveEdges_lt : ∀ e ∈ g.liveEdges, e.1 < e.2 := by
  rintro ⟨d, x⟩ he
  obtain ⟨hx, -, -, hd⟩ := Graph.mem_liveEdges.mp he
  exact h.inputs_lt hx d hd

theorem Lowered.liveEdges_in : ∀ e ∈ g.liveEdges, e.1 < g.numNodes := by
  rintro ⟨d, x⟩ he
  exact lt_trans (h.liveEdges_lt _ he) (Graph.mem_liveEdges.mp he).1

theorem Lowered.mem_topologicalSort : x ∈ g.topologicalSort ↔ x < g.numNodes := by
  have hperm := (@Graph.topologicalSort_perm _ g id h.liveEdges_lt h.liveEdges_in).1
  rw [hperm.mem_iff, h.mem_liveNodes]

theorem Lowered.active_lt {visited : List Nat} (hvis : ∀ x ∈ visited, x ∈ g.topologicalSort) :
    ∀ x ∈ g.active visited, x < g.numNodes ∧ g.skipped x = false := by
  intro x hx
  obtain ⟨hin, hskip⟩ := Graph.mem_active.mp hx
  exact ⟨h.mem_topologicalSort.mp (hvis x hin), hskip⟩

theorem Lowered.loop_ok (hsep : tg.Separated) : ∃ s, g.cseLoop addrs = .ok s ∧
    g.Merging addrs g.cseCapacity (g.active g.topologicalSort) s := by
  have hperm := (@Graph.topologicalSort_perm _ g id h.liveEdges_lt h.liveEdges_in).1
  have hnod : g.topologicalSort.Nodup := hperm.nodup_iff.mpr (nodup_range.filter _)
  rcases @Graph.cseLoop_cases _ _ g addrs h.uniformBodies id (fun x hx => h.inputs_lt hx)
    h.liveEdges_in with hok | ⟨-, before, x, after, s, heq, hmer, hskip, hbad⟩
  · exact hok
  exfalso
  obtain ⟨keyed, m, -, -, hm, -⟩ := hmer.map
  have hbef := h.active_lt fun y hy => by rw [heq]; exact mem_append_left _ hy
  have hx : x < g.numNodes := h.mem_topologicalSort.mp (by rw [heq]; simp)
  obtain ⟨i, te, rfl, hte, hnode⟩ := h.visited_op hx hskip
  have hred := hsep.hashes te (mem_iff_getElem?.mpr ⟨i, hte⟩)
  rcases hbad with hhash | ⟨hcomp, y, hy, hkey⟩
  · obtain ⟨hash, hok⟩ := (h.hash_iff hte s.canonical).mpr hred
    exact hhash hash hok
  · -- a body that cannot be compared is that of a pointwise op, which an earlier op is alike to
    obtain ⟨j, te', rfl, hte', -⟩ := h.visited_op (hbef y hy).1 (hbef y hy).2
    have hp : classifyNodeKind te.kernelId = .pointwise := by
      by_contra hp
      have hc : (g.node (tg.base + i)).unused.Comparable := hnode ▸ opNode_comparable hp hred
      exact hcomp hc
    have hi := op_index_lt hte
    have hj := op_index_lt hte'
    have halike : tg.Alike i j :=
      h.alike_of_key (h.opsToOps hm hbef) hte hte' hred hskip hkey.symm fun k k' hk hk' hkk =>
        h.alike hm hbef (hk.trans hi) (hk'.trans hj) hkk
    obtain rfl := hsep.pointwise i j te hte hp hj halike
    rw [heq] at hnod
    exact (nodup_append.mp hnod).2.2 _ (mem_of_mem_filter hy) _ mem_cons_self rfl

theorem Lowered.mergesSame (hsep : tg.Separated) :
    ∃ g' canonical, g.eliminateCommonSubexpressions addrs = .ok (g', canonical) ∧
      tg.MergesSame g' canonical := by
  obtain ⟨s, hloop, hmer⟩ := @Lowered.loop_ok tg g addrs h hsep
  obtain ⟨keyed, m, -, -, hm, -⟩ := hmer.map
  have hvis := h.active_lt fun x (hx : x ∈ g.topologicalSort) => hx
  have hsame : ∀ i j, i < tg.ops.length → j < tg.ops.length →
      s.canonical (tg.base + i) = s.canonical (tg.base + j) → tg.SameComputation i j :=
    fun i j hi hj heq => hsep.same i j hi hj (h.alike hm hvis hi hj heq)
  -- an op and the op that stands for it are the same computation
  have hrep : ∀ i, i < tg.ops.length → ∃ k, s.canonical (tg.base + i) = tg.base + k ∧
      tg.SameValue k i := by
    intro i hi
    obtain ⟨k, hk, heq, hself⟩ := h.canonical_op hm hvis hi
    exact ⟨k, heq, (hsame k i hk hi (hself.trans heq.symm)).sameValue⟩
  refine ⟨g.resolve s, s.canonical, ?_, ?_, ?_, ?_, ?_⟩
  · rw [Graph.eliminateCommonSubexpressions, bind_of_ok hloop]
    rfl
  · intro i j te te' hte hte' heq
    exact h.sameReads hm hte hte' heq (hsame i j (op_index_lt hte) (op_index_lt hte') heq)
  · exact fun i j hi hj heq => (hsame i j hi hj heq).sameValue
  · intro V run slots i te port hte
    rw [value_eq hte]
    congr 1
    refine map_congr_left fun n _ => readBy_congr fun k hk => ?_
    obtain ⟨k', heq, hval⟩ := hrep k ((source_lt hte hk).trans (op_index_lt hte))
    rw [heq, Nat.add_sub_cancel_left]
    exact (hval V run slots).symm
  · rw [hmer.outputIds, h.outputIds, map_map, forall₂_map_left_iff, forall₂_same]
    intro i hi
    exact hrep i (mem_range.mp (mem_of_mem_filter hi))

theorem Lowered.separated {g' : Graph Int}
    (hpass : g.eliminateCommonSubexpressions addrs = .ok (g', canonical))
    (hsame : tg.MergesSame g' canonical) : tg.Separated := by
  rcases @Graph.cseLoop_cases _ _ g addrs h.uniformBodies id (fun x hx => h.inputs_lt hx)
    h.liveEdges_in with ⟨s, hloop, hmer⟩ | ⟨⟨e, hloop⟩, -⟩
  · rw [Graph.eliminateCommonSubexpressions, bind_of_ok hloop] at hpass
    cases hpass
    obtain ⟨keyed, m, -, -, hm, -⟩ := hmer.map
    have hvis : ∀ x, x ∈ g.active g.topologicalSort ↔ x < g.numNodes ∧ g.skipped x = false := by
      intro x
      rw [Graph.mem_active, h.mem_topologicalSort]
    refine ⟨fun te hte hkind => ?_, fun i j te hte hkind hj halike => ?_,
      fun i j hi hj halike => ?_⟩
    · obtain ⟨i, hi⟩ := mem_iff_getElem?.mp hte
      have hskip := (h.not_skipped hi).mpr (by rw [hkind]; decide)
      exact (h.hash_iff hi s.canonical).mp (hm.hashed _ ((hvis _).mpr ⟨h.op_lt hi, hskip⟩)) hkind
    · -- a pointwise node is never replaced
      have hself : ∀ {k : Nat} {e : KernelEntry}, tg.ops[k]? = some e →
          classifyNodeKind e.kernelId = .pointwise → s.canonical (tg.base + k) = tg.base + k := by
        intro k e he hkind
        have hskip := (h.not_skipped he).mpr (by rw [hkind]; decide)
        refine hm.unread _ ((hvis _).mpr ⟨h.op_lt he, hskip⟩) fun hc => ?_
        have hc' : (g.node (tg.base + k)).unused.Comparable := hc
        rw [h.ops k e he] at hc'
        exact opNode_not_comparable hkind hc'
      have heq := h.merges hm hvis halike
      cases halike with
      | refl => rfl
      | twin hte₁ hte' kind =>
        cases hte.symm.trans hte₁
        rw [hself hte hkind, hself hte' (kind ▸ hkind)] at heq
        exact Nat.add_left_cancel heq
    · exact (hsame.values i j hi hj (h.merges hm hvis halike)).sameComputation hi hj
  · rw [Graph.eliminateCommonSubexpressions, hloop] at hpass
    cases hpass

end Pass

/-- **When the pass merges only what is the same**, wherever the nodes and the expressions are
in memory. -/
theorem lowered_mergesSame_iff (addrs : Addresses Int) : (∃ g' canonical,
      (tg.lowerTraceToGraph {}).eliminateCommonSubexpressions addrs = .ok (g', canonical) ∧
        tg.MergesSame g' canonical) ↔ tg.Separated :=
  ⟨fun ⟨_, _, hpass, hsame⟩ => tg.lowered.separated hpass hsame, tg.lowered.mergesSame⟩

def viewAndSlice : TraceGraph where
  ops := [CKernelId.view, CKernelId.slice].map fun kernelId =>
    { kernelId, numInputs := 1, inputMetas := [{}], inputTraceIndices := some [none]
      inputSlotIds := some [0] }
  numSlots := 1
  edges := []
  producer_lt i te j k hte hk := by
    have hnone : ∀ te ∈ [CKernelId.view, CKernelId.slice].map (fun kernelId =>
        ({ kernelId, numInputs := 1, inputMetas := [{}], inputTraceIndices := some [none]
           inputSlotIds := some [0] } : KernelEntry)), te.inputTraceIndices = some [none] := by
      simp
    have hsome := hnone te (mem_of_getElem? hte)
    rw [KernelEntry.traceIndex, hsome] at hk
    match j with
    | 0 => cases hk
    | j + 1 => cases hk

/-- **The view and the slice are merged**: both outputs of the graph become the view. -/
theorem slice_becomes_view : (((viewAndSlice.lowerTraceToGraph {}).eliminateCommonSubexpressions
      ⟨fun _ => 0, fun _ => 0⟩).map fun r => (r.1.outputIds, r.2 1, r.2 2)) = .ok ([1, 1], 1, 1) ∧
    viewAndSlice.ops.map KernelEntry.kernelId = [.view, .slice] ∧
    ¬ ∃ g' canonical, (viewAndSlice.lowerTraceToGraph {}).eliminateCommonSubexpressions
      ⟨fun _ => 0, fun _ => 0⟩ = .ok (g', canonical) ∧ viewAndSlice.MergesSame g' canonical := by
  have hrun : (((viewAndSlice.lowerTraceToGraph {}).eliminateCommonSubexpressions
      ⟨fun _ => 0, fun _ => 0⟩).map fun r => (r.1.outputIds, r.2 1, r.2 2)) =
        .ok ([1, 1], 1, 1) := by decide +kernel
  refine ⟨hrun, rfl, ?_⟩
  rintro ⟨g', canonical, hpass, hsame⟩
  rw [hpass] at hrun
  obtain ⟨-, hone, htwo⟩ : g'.outputIds = [1, 1] ∧ canonical 1 = 1 ∧ canonical 2 = 1 := by
    simpa [Except.map] using hrun
  have hkernel := (hsame.reads 0 1 _ _ rfl rfl (hone.trans htwo.symm)).1
  cases hkernel

end TraceGraph
end Crucible
