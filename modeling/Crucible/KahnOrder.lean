import Mathlib.Data.Finset.Card

/-! # Kahn's topological order

The vertices that wait for nothing stand in a queue.  The loop takes the first one, lists
it, and lowers the in-degree of each of its successors; a successor whose in-degree gets to
zero joins the queue.  An edge that is listed twice counts twice on both sides.

`Listed` is the invariant of the loop: the vertices listed and queued so far are those
whose in-degree is zero, and each of them comes after the sources of its edges.
-/
namespace Crucible
open List Function
namespace Kahn

/-- One successor loses an edge, and joins the queue when that was its last one. -/
def release (s : (Nat → Nat) × List Nat) (u : Nat) : (Nat → Nat) × List Nat :=
  let deg := update s.1 u (s.1 u - 1)
  (deg, if deg u = 0 then s.2 ++ [u] else s.2)

/-- The loop over the queue, for at most `fuel` rounds. -/
def loop (succs : Nat → List Nat) : Nat → List Nat → List Nat → (Nat → Nat) → List Nat
  | 0, done, _, _ => done
  | _ + 1, done, [], _ => done
  | fuel + 1, done, v :: queue, deg =>
    let next := (succs v).foldl release (deg, queue)
    loop succs fuel (done ++ [v]) next.2 next.1

/-- The loop from its start: the vertices without an edge to them are queued in order. -/
def order (succs : Nat → List Nat) (inDeg : Nat → Nat) (verts : List Nat) (fuel : Nat) : List Nat :=
  loop succs fuel [] (verts.filter fun v => inDeg v == 0) inDeg

/-- What releasing a list of successors does.  Each one is queued once, at the release that
takes its last edge. -/
theorem foldl_release (us : List Nat) (deg : Nat → Nat) (queue : List Nat)
    (hdeg : ∀ u, us.count u ≤ deg u) :
    ∃ ready : List Nat, ready.Nodup ∧ (∀ u, u ∈ ready ↔ u ∈ us ∧ deg u = us.count u) ∧
      us.foldl release (deg, queue) = (fun u => deg u - us.count u, queue ++ ready) := by
  induction us generalizing deg queue with
  | nil => exact ⟨[], nodup_nil, fun u => by simp, by simp⟩
  | cons v us ih =>
    have hpos : us.count v + 1 ≤ deg v := by
      have := hdeg v
      rwa [count_cons_self] at this
    have hrest : ∀ u, us.count u ≤ update deg v (deg v - 1) u := by
      intro u
      by_cases hu : u = v
      · subst hu
        rw [update_self]
        omega
      · rw [update_of_ne hu]
        have := hdeg u
        rwa [count_cons_of_ne (Ne.symm hu)] at this
    have hsub : (fun u => update deg v (deg v - 1) u - us.count u) =
        fun u => deg u - (v :: us).count u := by
      funext u
      by_cases hu : u = v
      · subst hu
        rw [update_self, count_cons_self]
        omega
      · rw [update_of_ne hu, count_cons_of_ne (Ne.symm hu)]
    rw [foldl_cons]
    by_cases hlast : deg v - 1 = 0
    · -- the last edge of `v`: it is queued now, and does not occur again
      have hnone : us.count v = 0 := by omega
      have hv : v ∉ us := count_eq_zero.mp hnone
      obtain ⟨ready, hnod, hmem, heq⟩ := ih (update deg v (deg v - 1)) (queue ++ [v]) hrest
      refine ⟨v :: ready, nodup_cons.mpr ⟨fun hin => hv ((hmem v).mp hin).1, hnod⟩, ?_, ?_⟩
      · intro u
        by_cases hu : u = v
        · subst hu
          rw [count_cons_self]
          exact ⟨fun _ => ⟨mem_cons_self, by omega⟩, fun _ => mem_cons_self⟩
        · rw [mem_cons, hmem, count_cons_of_ne (Ne.symm hu)]
          simp [hu]
      · rw [release]
        simp only [update_self, if_pos hlast]
        rw [heq, hsub, append_assoc, singleton_append]
    · obtain ⟨ready, hnod, hmem, heq⟩ := ih (update deg v (deg v - 1)) queue hrest
      refine ⟨ready, hnod, ?_, ?_⟩
      · intro u
        rw [hmem]
        by_cases hu : u = v
        · subst hu
          rw [update_self, count_cons_self]
          refine ⟨fun h => ⟨mem_cons_self, by omega⟩, fun h => ?_⟩
          have hcount : 0 < us.count u := by omega
          exact ⟨count_pos_iff.mp hcount, by omega⟩
        · rw [count_cons_of_ne (Ne.symm hu)]
          simp [hu]
      · rw [release]
        simp only [update_self, if_neg hlast]
        rw [heq, hsub]

section Invariant
variable {verts : List Nat} {edges : List (Nat × Nat)}

/-- Each vertex of the list comes after the sources of the edges to it. -/
def Sorted (edges : List (Nat × Nat)) (out : List Nat) : Prop :=
  ∀ before u after, out = before ++ u :: after → ∀ d, (d, u) ∈ edges → d ∈ before

theorem Sorted.append {out more : List Nat} (h : Sorted edges out)
    (hmore : ∀ u ∈ more, ∀ d, (d, u) ∈ edges → d ∈ out) : Sorted edges (out ++ more) := by
  intro before u after heq d hd
  rcases append_eq_append_iff.mp heq with ⟨mid, rfl, hrest⟩ | ⟨mid, rfl, hrest⟩
  · -- the vertex is one of the new ones, after the whole old list
    have hu : u ∈ more := hrest ▸ mem_append_right mid mem_cons_self
    exact mem_append_left mid (hmore u hu d hd)
  · cases mid with
    | nil =>
      have hu : u ∈ more := by
        rw [nil_append] at hrest
        exact hrest ▸ mem_cons_self
      have := hmore u hu d hd
      rwa [append_nil] at this
    | cons w mid =>
      obtain ⟨rfl, -⟩ := cons.inj hrest
      exact h before u mid rfl d hd

/-- The invariant of the loop, with the vertices listed so far and those in the queue. -/
structure Listed (verts : List Nat) (edges : List (Nat × Nat)) (done queue : List Nat)
    (deg : Nat → Nat) : Prop where
  nodup : (done ++ queue).Nodup
  mem_iff : ∀ u, u ∈ done ++ queue ↔ u ∈ verts ∧ deg u = 0
  deg_eq : ∀ u, deg u = edges.countP fun e => e.2 = u ∧ e.1 ∉ done
  sorted : Sorted edges (done ++ queue)

def succsOf (edges : List (Nat × Nat)) (v : Nat) : List Nat :=
  (edges.filter fun e => e.1 == v).map Prod.snd

theorem mem_succsOf {v u : Nat} : u ∈ succsOf edges v ↔ (v, u) ∈ edges := by
  simp only [succsOf, mem_map, mem_filter, beq_iff_eq]
  constructor
  · rintro ⟨⟨d, w⟩, ⟨hin, rfl⟩, rfl⟩
    exact hin
  · exact fun hin => ⟨(v, u), ⟨hin, rfl⟩, rfl⟩

theorem count_succsOf (v u : Nat) :
    (succsOf edges v).count u = edges.countP fun e => e.2 = u ∧ e.1 = v := by
  induction edges with
  | nil => rfl
  | cons e edges ih =>
    rw [countP_cons, ← ih]
    by_cases hv : e.1 = v
    · have hcons : succsOf (e :: edges) v = e.2 :: succsOf edges v := by
        simp [succsOf, hv]
      rw [hcons, count_cons]
      simp [hv]
    · have hcons : succsOf (e :: edges) v = succsOf edges v := by
        simp [succsOf, hv]
      rw [hcons]
      simp [hv]

theorem countP_listed (done : List Nat) {v : Nat} (hv : v ∉ done) (u : Nat) :
    (edges.countP fun e => e.2 = u ∧ e.1 ∉ done) =
      (edges.countP fun e => e.2 = u ∧ e.1 ∉ done ++ [v]) + (succsOf edges v).count u := by
  rw [count_succsOf]
  induction edges with
  | nil => rfl
  | cons e edges ih =>
    simp only [countP_cons, ih]
    by_cases hu : e.2 = u
    · by_cases hsame : e.1 = v
      · simp [hu, hsame, hv]
        omega
      · by_cases hdone : e.1 ∈ done
        · simp [hu, hsame, hdone]
        · simp [hu, hsame, hdone]
          omega
    · simp [hu]

/-- **A round keeps the invariant.** -/
theorem Listed.step {done queue : List Nat} {v : Nat} {deg : Nat → Nat}
    (h : Listed verts edges done (v :: queue) deg) (hedg : ∀ e ∈ edges, e.2 ∈ verts) :
    Listed verts edges (done ++ [v]) ((succsOf edges v).foldl release (deg, queue)).2
      ((succsOf edges v).foldl release (deg, queue)).1 := by
  have hspl : ∀ q : List Nat, done ++ [v] ++ q = done ++ v :: q := fun q => by
    rw [append_assoc, singleton_append]
  have hv : v ∉ done := by
    have := nodup_append.mp h.nodup
    exact fun hin => this.2.2 v hin v mem_cons_self rfl
  have hcount : ∀ u, deg u = (edges.countP fun e => e.2 = u ∧ e.1 ∉ done ++ [v]) +
      (succsOf edges v).count u := fun u => (h.deg_eq u).trans (countP_listed done hv u)
  obtain ⟨ready, hnod, hready, heq⟩ := foldl_release (succsOf edges v) deg queue
    fun u => by rw [hcount u]; exact Nat.le_add_left _ _
  rw [heq]
  dsimp only
  have hwas : ∀ u ∈ ready, u ∉ done ++ v :: queue := by
    intro u hu hin
    obtain ⟨hsucc, hlast⟩ := (hready u).mp hu
    have hzero := ((h.mem_iff u).mp hin).2
    have := count_pos_iff.mpr hsucc
    omega
  refine ⟨?_, fun u => ?_, fun u => ?_, ?_⟩
  · rw [← append_assoc, hspl, nodup_append]
    exact ⟨h.nodup, hnod, fun a ha b hb hab => hwas b hb (hab ▸ ha)⟩
  · rw [← append_assoc, hspl, mem_append, h.mem_iff, hready, mem_succsOf]
    constructor
    · rintro (⟨hin, hzero⟩ | ⟨hedge, hlast⟩)
      · exact ⟨hin, by omega⟩
      · exact ⟨hedg _ hedge, by omega⟩
    · rintro ⟨hin, hzero⟩
      by_cases hsucc : (v, u) ∈ edges
      · have := hcount u
        exact .inr ⟨hsucc, by omega⟩
      · have hnone : (succsOf edges v).count u = 0 :=
          count_eq_zero.mpr fun h => hsucc (mem_succsOf.mp h)
        exact .inl ⟨hin, by omega⟩
  · rw [hcount u]
    exact Nat.add_sub_cancel _ _
  · rw [← append_assoc, hspl]
    refine h.sorted.append fun u hu d hd => ?_
    -- no edge to a vertex that is queued now is left, so each of its sources is listed
    obtain ⟨-, hlast⟩ := (hready u).mp hu
    have hnone : (edges.countP fun e => e.2 = u ∧ e.1 ∉ done ++ [v]) = 0 := by
      have := hcount u
      omega
    have hd' := countP_eq_zero.mp hnone (d, u) hd
    have hin : d ∈ done ++ [v] := by
      by_contra hnot
      exact hd' (by simpa using hnot)
    rw [← hspl]
    exact mem_append_left queue hin

theorem Listed.length_le {done queue : List Nat} {deg : Nat → Nat}
    (h : Listed verts edges done queue deg) : done.length + queue.length ≤ verts.length := by
  rw [← length_append]
  exact (h.nodup.subperm fun u hu => ((h.mem_iff u).mp hu).1).length_le

/-- **The loop ends with an empty queue** when it has one round for each vertex. -/
theorem loop_listed (hedg : ∀ e ∈ edges, e.2 ∈ verts) (fuel : Nat) (done queue : List Nat)
    (deg : Nat → Nat) (h : Listed verts edges done queue deg)
    (hfuel : verts.length ≤ done.length + fuel) :
    ∃ deg', Listed verts edges (loop (succsOf edges) fuel done queue deg) [] deg' := by
  induction fuel generalizing done queue deg with
  | zero =>
    have hlen := h.length_le
    obtain rfl : queue = [] := length_eq_zero_iff.mp (by omega)
    exact ⟨deg, h⟩
  | succ fuel ih =>
    cases queue with
    | nil => exact ⟨deg, h⟩
    | cons v queue =>
      refine ih _ _ _ (h.step hedg) ?_
      rw [length_append, length_singleton]
      omega

def inDegree (edges : List (Nat × Nat)) (u : Nat) : Nat := edges.countP fun e => e.2 = u

theorem listed_start (hnod : verts.Nodup) :
    Listed verts edges [] (verts.filter fun v => inDegree edges v == 0) (inDegree edges) := by
  refine ⟨?_, fun u => ?_, fun u => ?_, ?_⟩
  · exact hnod.filter _
  · rw [nil_append, mem_filter, beq_iff_eq]
  · simp [inDegree]
  · rintro before u after heq d hd
    have hu : u ∈ verts.filter fun v => inDegree edges v == 0 := by
      rw [nil_append] at heq
      rw [heq]
      exact mem_append_right _ mem_cons_self
    have hzero : inDegree edges u = 0 := by
      simpa using (mem_filter.mp hu).2
    have := countP_eq_zero.mp hzero (d, u) hd
    simp at this

/-- **The order lists every vertex once, after the sources of its edges.** -/
theorem order_perm (hnod : verts.Nodup) (hedg : ∀ e ∈ edges, e.1 ∈ verts ∧ e.2 ∈ verts)
    {rank : Nat → Nat} (hrank : ∀ e ∈ edges, rank e.1 < rank e.2) {fuel : Nat}
    (hfuel : verts.length ≤ fuel) :
    (order (succsOf edges) (inDegree edges) verts fuel).Perm verts ∧
      Sorted edges (order (succsOf edges) (inDegree edges) verts fuel) := by
  obtain ⟨deg, h⟩ := loop_listed (fun e he => (hedg e he).2) fuel [] _ _ (listed_start hnod)
    (by simpa using hfuel)
  change Listed verts edges (order (succsOf edges) (inDegree edges) verts fuel) [] deg at h
  generalize order (succsOf edges) (inDegree edges) verts fuel = out at h
  have hnd := h.nodup
  have hsor := h.sorted
  rw [append_nil] at hnd hsor
  have hmem : ∀ u, u ∈ out ↔ u ∈ verts ∧ deg u = 0 := by
    intro u
    rw [← h.mem_iff, append_nil]
  -- a vertex is listed once the sources of its edges are, and those rank below it
  have hall : ∀ r u, rank u = r → u ∈ verts → u ∈ out := by
    intro r
    induction r using Nat.strongRecOn with
    | ind r ih =>
      intro u hr hu
      rw [hmem]
      refine ⟨hu, ?_⟩
      rw [h.deg_eq, countP_eq_zero]
      rintro ⟨d, w⟩ he
      simp only [decide_eq_true_eq]
      rintro ⟨rfl, hnot⟩
      have hlt := hrank (d, w) he
      exact hnot (ih (rank d) (by rw [← hr]; exact hlt) d rfl (hedg _ he).1)
  refine ⟨?_, hsor⟩
  rw [perm_ext_iff_of_nodup hnd hnod]
  exact fun u => ⟨fun hu => ((hmem u).mp hu).1, fun hu => hall _ u rfl hu⟩

end Invariant
end Kahn
end Crucible
