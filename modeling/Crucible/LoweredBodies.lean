import Crucible.GraphLowering
import Crucible.NodeEquality

/-! # The bodies of a lowered graph

The kind of a node says what its body is.  The lowering builds every node that is not
pointwise through the external factory and overwrites the kind afterwards, so only a node of
an external kernel keeps a body that agrees with its kind.  The lowered graph is safe for the
passes exactly when every op is pointwise or external, and no two pointwise ops have the same
shape and the same number of inputs.
-/
namespace Crucible
open List GraphNode

namespace GraphNode
variable {E : Type}

end GraphNode

namespace Graph
variable {E : Type} [DecidableEq E]

end Graph

namespace TraceGraph
variable {tg : TraceGraph} {g : Graph Int}

/-- Two pointwise ops whose nodes can look alike: same type, device and sizes, and the same
number of inputs. -/
def SameOutline (tg : TraceGraph) (te te' : KernelEntry) : Prop :=
  classifyNodeKind te.kernelId = .pointwise ∧ classifyNodeKind te'.kernelId = .pointwise ∧
    shapeOf te = shapeOf te' ∧ (tg.sources te).length = (tg.sources te').length

variable {inputs : List Nat} {te te' : KernelEntry}

theorem opNode_hashable
    (h : classifyNodeKind te.kernelId ≠ .reduction) : (opNode te inputs).Hashable := by
  refine ⟨fun hkind info hbody => ?_, fun hkind body hbody => ?_⟩
  · rcases hkind with hkind | hkind
    · simp only [opNode] at hkind hbody
      simp [hkind] at hbody
    · exact h hkind
  · simp only [opNode] at hkind hbody
    simp [hkind] at hbody

theorem Lowered.node_cases (h : tg.Lowered g) {i : Nat} (hi : i < g.numNodes) :
    ((g.node i).kind = .input ∧ (g.node i).body = .null) ∨
      ∃ k te, i = tg.base + k ∧ tg.ops[k]? = some te ∧
        (g.node i).unused = opNode te (tg.inputNodes te) := by
  rcases lt_or_ge i tg.base with hlt | hge
  · obtain ⟨dtype, dev, size, heq⟩ := h.inputs i hlt
    have hkind : (g.node i).unused.kind = .input := by rw [heq]
    have hbody : (g.node i).unused.body = .null := by rw [heq]
    exact .inl ⟨hkind, hbody⟩
  · have hlt : i - tg.base < tg.ops.length := by
      rw [h.numNodes] at hi
      omega
    have hte : tg.ops[i - tg.base]? = some tg.ops[i - tg.base] := getElem?_eq_getElem hlt
    have hid : i = tg.base + (i - tg.base) := by omega
    have hnode := h.ops _ _ hte
    rw [← hid] at hnode
    exact .inr ⟨i - tg.base, _, hid, hte, hnode⟩

theorem opNode_comparable (hp : classifyNodeKind te.kernelId ≠ .pointwise)
    (hr : classifyNodeKind te.kernelId ≠ .reduction) : (opNode te inputs).Comparable := by
  refine ⟨fun hkind => (hkind.elim hp hr).elim, fun _ => ?_⟩
  simp [opNode, hp]

theorem opNode_not_comparable
    (h : classifyNodeKind te.kernelId = .pointwise) : ¬ (opNode te inputs).Comparable := by
  intro hc
  obtain ⟨body, hbody⟩ := hc.1 (.inl h)
  simp [opNode, h] at hbody

theorem shapeOf_length (te : KernelEntry) : (shapeOf te).2.2.length ≤ 8 := by
  have hdims : ∀ tensor : TensorMeta, (dimsOf tensor).length ≤ 8 := by
    intro tensor
    rw [dimsOf, length_map, length_range]
    split
    · assumption
    · exact Nat.le_refl 8
  rw [shapeOf]
  split
  · exact zero_le
  · split
    · exact hdims _
    · exact zero_le

theorem opNode_dims (te : KernelEntry) (inputs : List Nat) :
    (opNode te inputs).dims = (shapeOf te).2.2 := by
  have hlen := shapeOf_length te
  show (shapeOf te).2.2.take (((shapeOf te).2.2.length + 0) % 2 ^ 8) = _
  rw [add_zero, Nat.mod_eq_of_lt (by omega), take_length]

variable {canonical : Nat → Nat}

/-- A graph of pointwise and external ops, no two of the first with one outline. -/
def Outlined (tg : TraceGraph) : Prop :=
  (∀ te ∈ tg.ops, classifyNodeKind te.kernelId = .pointwise ∨
    classifyNodeKind te.kernelId = .external) ∧
  ∀ (i j : Nat) (te te' : KernelEntry), i ≠ j → tg.ops[i]? = some te →
    tg.ops[j]? = some te' → ¬ tg.SameOutline te te'

theorem Outlined.kind (ho : tg.Outlined) {k : Nat} (hte : tg.ops[k]? = some te) :
    classifyNodeKind te.kernelId = .pointwise ∨ classifyNodeKind te.kernelId = .external :=
  ho.1 te (mem_iff_getElem?.mpr ⟨k, hte⟩)

end TraceGraph
end Crucible
