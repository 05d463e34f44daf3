import Crucible.ExprNode
import Crucible.GroupProbing

/-! # The intern table of expressions

`intern_node` looks for a node with the given fields in a table of control groups, and adds one
if there is none.  A pointer is the place of the node in the arena, which only grows; the
arena also chooses the addresses, and the hash of a node mixes the addresses of its children.

The probe loop has no bound of its own: one that has seen all groups never ends, and is a fault
here.  A capacity past the budget of the table buffer is a fault as well, and it can meet a
request for a node that is there, because the table grows before it is searched.
-/
namespace Crucible
open OpenAddressing

/-- What the process gives to the pool: the width of a control group and the addresses of the
nodes. -/
structure PoolEnv where
  groupBits : Nat
  groupBits_mem : 4 ≤ groupBits ∧ groupBits ≤ 6
  addr : Nat → Nat

/-- The control byte and the slot of each cell.  An empty control byte is `none`. -/
abbrev Cells := Nat → Option (Nat × Nat)

/-- The arena and the table of an `ExprPool`. -/
structure Pool where
  nodes : List (Node Nat) := []
  capacity : Nat
  cells : Cells := fun _ => none
  count : Nat := 0

/-- `swiss_table_max_capacity`. -/
def maxCapacity : Nat := 2 ^ 30

def IsSwissTableCapacity (capacity : Nat) : Prop :=
  capacity = 0 ∨ (2 ^ capacity.log2 = capacity ∧ 16 ≤ capacity ∧ capacity ≤ maxCapacity)

instance (capacity : Nat) : Decidable (IsSwissTableCapacity capacity) :=
  inferInstanceAs (Decidable (_ ∨ _))

namespace PoolEnv
variable (env : PoolEnv)

/-- `group_width`. -/
def width : Nat := 2 ^ env.groupBits

def hash (n : Node Nat) : Nat := n.hash env.addr

def h2Tag (hash : Nat) : Nat := hash >>> 57

/-- The first slot of the first group of a probe. -/
def firstSlot (capacity hash : Nat) : Nat := wrap64 (hash * env.width) &&& (capacity - 1)

/-- The first slot of the next group, in probe iteration `it`. -/
def nextSlot (capacity base it : Nat) : Nat := (base + it * env.width) &&& (capacity - 1)

def sameNode (nodes : List (Node Nat)) (n : Node Nat) (ptr : Nat) : Bool :=
  match nodes[ptr]? with
  | some e => env.hash e = env.hash n && e.payload = n.payload && e.packed = n.packed &&
      e.args = n.args
  | none => false

/-- The matches of a group: the first cell with the tag whose node is the requested one. -/
def matchGroup (nodes : List (Node Nat)) (cells : Cells) (n : Node Nat) (base : Nat) : Option Nat :=
  (List.range env.width).find? fun j =>
    match cells (base + j) with
    | some (tag, ptr) => tag = h2Tag (env.hash n) && env.sameNode nodes n ptr
    | none => false

/-- `match_empty`: the first empty cell of a group. -/
def matchEmpty (cells : Cells) (base : Nat) : Option Nat :=
  (List.range env.width).find? fun j => (cells (base + j)).isNone

/-- The probe loop of `intern_node`. -/
def probeLoop (p : Pool) (n : Node Nat) : Nat → Nat → Nat → Except Fault Probe
  | _, _, 0 => .error .endless
  | base, it, fuel + 1 =>
    if p.capacity < base + env.width then .error .contract
    else
      match env.matchGroup p.nodes p.cells n base with
      | some j => .ok (.hit (base + j))
      | none =>
        match env.matchEmpty p.cells base with
        | some j => .ok (.free (base + j))
        | none => probeLoop p n (env.nextSlot p.capacity base (it + 1)) (it + 1) fuel

/-- The probe loop of `grow_to_`, which looks for an empty cell only. -/
def placeLoop (capacity : Nat) (cells : Cells) : Nat → Nat → Nat → Except Fault Nat
  | _, _, 0 => .error .endless
  | base, it, fuel + 1 =>
    if capacity < base + env.width then .error .contract
    else
      match env.matchEmpty cells base with
      | some j => .ok (base + j)
      | none => placeLoop capacity cells (env.nextSlot capacity base (it + 1)) (it + 1) fuel

/-- The body of the loop of `grow_to_` for one old cell. -/
def place (nodes : List (Node Nat)) (capacity : Nat) (s : Cells × Nat) (cell : Option (Nat × Nat)) :
    Except Fault (Cells × Nat) :=
  match cell with
  | none => .ok s
  | some (_, ptr) =>
    match nodes[ptr]? with
    | none => .error .contract
    | some e => do
      let hash := env.hash e
      let c ← env.placeLoop capacity s.1 (env.firstSlot capacity hash) 0 (capacity / env.width)
      pure (Function.update s.1 c (some (h2Tag hash, ptr)), s.2 + 1)

def growTo (p : Pool) (capacity : Nat) : Except Fault Pool :=
  if ¬ (IsSwissTableCapacity capacity ∧ env.width ≤ capacity) then .error .contract
  else do
    let s ← (List.range p.capacity).foldlM
      (fun s i => env.place p.nodes capacity s (p.cells i)) (fun _ => none, 0)
    pure { p with capacity, cells := s.1, count := s.2 }

def rehash (p : Pool) : Except Fault Pool := env.growTo p (p.capacity * 2)

/-- `intern_node` after the rehash. -/
def internAt (p : Pool) (n : Node Nat) : Except Fault (Pool × Nat) := do
  match ← env.probeLoop p n (env.firstSlot p.capacity (env.hash n)) 0 (p.capacity / env.width) with
  | .hit c => pure (p, ((p.cells c).map Prod.snd).getD 0)
  | .free c =>
    pure ({ p with
      nodes := p.nodes ++ [n]
      cells := Function.update p.cells c (some (h2Tag (env.hash n), p.nodes.length))
      count := p.count + 1 }, p.nodes.length)
  | .full => throw .endless

def internNode (p : Pool) (n : Node Nat) : Except Fault (Pool × Nat) := do
  let p ← if p.capacity * 7 ≤ p.count * 8 then env.rehash p else pure p
  env.internAt p n

/-- The doubling loop of `reserve` and of `rounded_capacity_`. -/
def doubleTo (needed : Nat) : Nat → Nat → Nat
  | target, 0 => target
  | target, fuel + 1 => if target < needed then doubleTo needed (target <<< 1) fuel else target

def reserve (p : Pool) (entries : Nat) : Except Fault Pool :=
  if maxCapacity * 7 / 8 < entries then .error .contract
  else
    let needed := (entries * 8 + 6) / 7
    let target := doubleTo needed env.width needed
    if p.capacity < target then env.growTo p target else .ok p

/-- The nodes that the constructor interns: the two truth values and the cached integers. -/
def seeds : List (Node Nat) :=
  [{ op := .boolTrue, flags := .isBoolean }, { op := .boolFalse, flags := .isBoolean }] ++
    (List.range 256).map fun i =>
      { op := .integer, flags := integerFlags ((i : Int) - 128), payload := (i : Int) - 128 }

/-- The constructor of `ExprPool`. -/
def newPool (initialCapacity : Nat) : Except Fault Pool :=
  if maxCapacity < initialCapacity then .error .contract
  else
    let capacity := doubleTo initialCapacity env.width initialCapacity
    if ¬ IsSwissTableCapacity capacity then .error .contract
    else seeds.foldlM (fun p n => do pure (← env.internNode p n).1) { capacity }

inductive Call where
  | intern (n : Node Nat)
  | reserve (entries : Nat)

def call (p : Pool) : Call → Except Fault Pool
  | .intern n => do pure (← env.internNode p n).1
  | .reserve entries => env.reserve p entries

def run (initialCapacity : Nat) (calls : List Call) : Except Fault Pool := do
  calls.foldlM env.call (← env.newPool initialCapacity)

end PoolEnv
end Crucible
