import Crucible.ExprIntern

/-! # Hash-consing

The pool holds no two nodes with the same fields, and a node that is requested again is the
node that is there.  Every probe loop ends.  Requests fail in one way only: a pool that is
full at the largest capacity has to grow before it looks, and cannot.
-/
namespace Crucible
open List Function
open OpenAddressing
namespace PoolEnv
variable {env : PoolEnv}

theorem width_pos (env : PoolEnv) : 0 < env.width := Nat.two_pow_pos _

/-! ### The loops are searches -/

def keyOf (nodes : List (Node Nat)) (cell : Option (Nat × Nat)) : Option (Node Nat) :=
  cell.bind fun c => nodes[c.2]?

def ptrOf (cell : Option (Nat × Nat)) : Nat := (cell.map Prod.snd).getD 0

/-- Every cell in use points to a node and has its tag. -/
def Tagged (env : PoolEnv) (nodes : List (Node Nat)) (cells : Cells) : Prop :=
  ∀ c tag ptr, cells c = some (tag, ptr) → ∃ e, nodes[ptr]? = some e ∧ tag = h2Tag (env.hash e)

variable {e n : Node Nat} {nodes : List (Node Nat)} {ptr m i needed initialCapacity : Nat}

theorem sameNode_eq (h : nodes[ptr]? = some e) : env.sameNode nodes n ptr = decide (e = n) := by
  rw [sameNode, h]
  by_cases heq : e = n
  · subst heq
    simp
  · rw [decide_eq_false heq]
    simp only [Bool.and_eq_false_iff, decide_eq_false_iff_not]
    by_contra hno
    simp only [not_or, not_not] at hno
    obtain ⟨⟨⟨-, hpay⟩, hpac⟩, hargs⟩ := hno
    obtain ⟨hop, -, hflags, hsym⟩ := Node.packed_inj hpac
    exact heq (Node.ext_fields hop hflags hsym hpay hargs)

variable {cells : Cells}

theorem Tagged.matchGroup_eq (h : env.Tagged nodes cells) (n : Node Nat) (base : Nat) :
    env.matchGroup nodes cells n base = inGroup (keyOf nodes) env.width cells n base := by
  rw [matchGroup]
  congr 1
  funext j
  cases hcell : cells (base + j) with
  | none => rfl
  | some cell =>
    obtain ⟨tag, ptr⟩ := cell
    obtain ⟨e, he, rfl⟩ := h _ _ _ hcell
    have hkey : keyOf nodes (some (h2Tag (env.hash e), ptr)) = some e := he
    simp only [sameNode_eq he, hkey]
    by_cases heq : e = n
    · simp [heq]
    · simp [heq]

theorem Tagged.keyOf_isNone
    (h : env.Tagged nodes cells) (c : Nat) : (keyOf nodes (cells c)).isNone = (cells c).isNone := by
  cases hcell : cells c with
  | none => rfl
  | some cell =>
    obtain ⟨tag, ptr⟩ := cell
    obtain ⟨e, he, -⟩ := h _ _ _ hcell
    have hkey : keyOf nodes (some (tag, ptr)) = some e := he
    rw [hkey]
    rfl

theorem Tagged.matchEmpty_eq (h : env.Tagged nodes cells) (base : Nat) :
    env.matchEmpty cells base = emptyIn (keyOf nodes) env.width cells base := by
  rw [matchEmpty]
  congr 1
  funext j
  exact (h.keyOf_isNone _).symm

theorem and_mask (m x : Nat) : x &&& (2 ^ m * env.width - 1) = x % (2 ^ m * env.width) := by
  rw [width, ← pow_add, Nat.and_two_pow_sub_one_eq_mod]

theorem firstSlot_eq (hle : 2 ^ m * env.width ≤ maxCapacity) (hash : Nat) :
    env.firstSlot (2 ^ m * env.width) hash = groupAt (2 ^ m) env.width hash 0 := by
  have hdvd : 2 ^ m * env.width ∣ 2 ^ 64 := by
    rw [width, ← pow_add] at hle ⊢
    refine Nat.pow_dvd_pow 2 ?_
    have := (Nat.pow_le_pow_iff_right (by decide)).mp hle
    omega
  rw [firstSlot, and_mask, wrap64, Nat.mod_mod_of_dvd _ hdvd, Nat.mul_mod_mul_right]
  rfl

theorem nextSlot_eq (m hash i : Nat) :
    env.nextSlot (2 ^ m * env.width) (groupAt (2 ^ m) env.width hash i) (i + 1) =
      groupAt (2 ^ m) env.width hash (i + 1) := by
  rw [nextSlot, and_mask, groupAt, groupAt, ← add_mul, Nat.mul_mod_mul_right, Nat.mod_add_mod,
    triangular_succ, add_assoc]

theorem group_in_table (m hash i : Nat) :
    ¬ 2 ^ m * env.width < groupAt (2 ^ m) env.width hash i + env.width := by
  have hpos := env.width_pos
  have := @groupAt_lt m env.width hash i (env.width - 1) (by omega)
  omega

variable {p p' : Pool}

/-- **The probe loop is a search by groups.** -/
theorem probeLoop_eq (hcap : p.capacity = 2 ^ m * env.width)
    (htag : env.Tagged p.nodes p.cells) (n : Node Nat) (i fuel : Nat) :
    env.probeLoop p n (groupAt (2 ^ m) env.width (env.hash n) i) i fuel =
      match groupSearch (keyOf p.nodes) (2 ^ m) env.width env.hash p.cells n i fuel with
      | .hit c => .ok (.hit c)
      | .free c => .ok (.free c)
      | .full => .error .endless := by
  induction fuel generalizing i with
  | zero => rfl
  | succ fuel ih =>
    have hnext := ih (i + 1)
    rw [probeLoop, groupSearch, hcap, if_neg (group_in_table m _ i), htag.matchGroup_eq,
      htag.matchEmpty_eq, nextSlot_eq]
    cases inGroup (keyOf p.nodes) env.width p.cells n
      (groupAt (2 ^ m) env.width (env.hash n) i) with
    | some j => rfl
    | none =>
      cases emptyIn (keyOf p.nodes) env.width p.cells
        (groupAt (2 ^ m) env.width (env.hash n) i) with
      | some j => rfl
      | none => exact hnext

theorem placeLoop_eq (htag : env.Tagged nodes cells) (hash i fuel : Nat) :
    env.placeLoop (2 ^ m * env.width) cells (groupAt (2 ^ m) env.width hash i) i fuel =
      match emptySearch (keyOf nodes) (2 ^ m) env.width hash cells i fuel with
      | some c => .ok c
      | none => .error .endless := by
  induction fuel generalizing i with
  | zero => rfl
  | succ fuel ih =>
    have hnext := ih (i + 1)
    rw [placeLoop, emptySearch, if_neg (group_in_table m _ i), htag.matchEmpty_eq, nextSlot_eq]
    cases emptyIn (keyOf nodes) env.width cells (groupAt (2 ^ m) env.width hash i) with
    | some j => rfl
    | none => exact hnext

/-! ### The invariant -/

/-- The table represents the nodes, each with its pointer. -/
def TableOf (env : PoolEnv) (nodes keys : List (Node Nat)) (m : Nat) (cells : Cells) : Prop :=
  Represents (keyOf nodes) (cellAt (2 ^ m) env.width env.hash) (2 ^ m * env.width) ptrOf cells
    ⟨keys, nodes.idxOf⟩

/-- **The invariant of a pool.** -/
structure Sound (env : PoolEnv) (p : Pool) : Prop where
  table : ∃ m, p.capacity = 2 ^ m * env.width ∧ env.TableOf p.nodes p.nodes m p.cells
  capacity_le : p.capacity ≤ maxCapacity
  tagged : env.Tagged p.nodes p.cells
  count : p.count = p.nodes.length
  load : p.count * 8 ≤ p.capacity * 7

theorem Sound.nodup (h : env.Sound p) : p.nodes.Nodup := by
  obtain ⟨m, -, htab⟩ := h.table
  exact htab.nodup

/-! ### Growing -/

def keysBelow (nodes : List (Node Nat)) (cells : Cells) (i : Nat) : List (Node Nat) :=
  (range i).filterMap fun c => keyOf nodes (cells c)

theorem mem_keysBelow :
    n ∈ keysBelow nodes cells i ↔ ∃ c, c < i ∧ keyOf nodes (cells c) = some n := by
  simp only [keysBelow, mem_filterMap, mem_range]

theorem keysBelow_succ (nodes : List (Node Nat)) (cells : Cells) (i : Nat) :
    keysBelow nodes cells (i + 1) = keysBelow nodes cells i ++ (keyOf nodes (cells i)).toList := by
  rw [keysBelow, range_succ, keysBelow]
  cases hkey : keyOf nodes (cells i) with
  | none => simp [hkey]
  | some n => simp [hkey]

/-- The state of `grow_to_` after the first `i` old cells. -/
structure Grown (env : PoolEnv) (p : Pool) (m i : Nat) (s : Cells × Nat) : Prop where
  table : env.TableOf p.nodes (keysBelow p.nodes p.cells i) m s.1
  tagged : env.Tagged p.nodes s.1
  count : s.2 = (keysBelow p.nodes p.cells i).length

theorem Grown.start (env : PoolEnv) (p : Pool) (m : Nat) : env.Grown p m 0 (fun _ => none, 0) :=
  ⟨.empty _ fun _ _ => rfl, nofun, rfl⟩

theorem TableOf.store {keys : List (Node Nat)} {c : Nat} (h : env.TableOf nodes keys m cells)
    (hfind : find (keyOf nodes) (cellAt (2 ^ m) env.width env.hash) (2 ^ m * env.width) cells e =
      .free c) (hroom : keys.length < 2 ^ m * env.width)
    (hnew : e ∉ keys) (hptr : nodes[ptr]? = some e) (hidx : nodes.idxOf e = ptr) (tag : Nat) :
    env.TableOf nodes (keys ++ [e]) m (update cells c (some (tag, ptr))) := by
  have hstore := h.store_free (cellAt_fullCycle env.width_pos) (s := some (tag, ptr)) hfind hptr
  have hput : (⟨keys, nodes.idxOf⟩ : BoundedMap (Node Nat) Nat).put (2 ^ m * env.width) e ptr =
      ⟨keys ++ [e], nodes.idxOf⟩ := by
    rw [BoundedMap.put, if_neg hnew, if_pos hroom, ← hidx, update_eq_self]
  rw [TableOf, ← hput]
  exact hstore

theorem Tagged.store (h : env.Tagged nodes cells) (hptr : nodes[ptr]? = some e) (c : Nat) :
    env.Tagged nodes (update cells c (some (h2Tag (env.hash e), ptr))) := by
  intro c' tag ptr' hcell
  by_cases hc : c' = c
  · rw [hc, update_self] at hcell
    cases hcell
    exact ⟨e, hptr, rfl⟩
  · rw [update_of_ne hc] at hcell
    exact h c' tag ptr' hcell

theorem TableOf.place {keys : List (Node Nat)}
    (h : env.TableOf nodes keys m cells) (htag : env.Tagged nodes cells)
    (hle : 2 ^ m * env.width ≤ maxCapacity) (hroom : keys.length < 2 ^ m * env.width)
    (hnew : e ∉ keys) (hptr : nodes[ptr]? = some e) (hidx : nodes.idxOf e = ptr) :
    ∃ c, env.placeLoop (2 ^ m * env.width) cells
        (env.firstSlot (2 ^ m * env.width) (env.hash e)) 0 (2 ^ m) = .ok c ∧
      env.TableOf nodes (keys ++ [e]) m
        (update cells c (some (h2Tag (env.hash e), ptr))) := by
  have hpos := env.width_pos
  -- the search for the node ends at an empty cell
  obtain ⟨c, hfind⟩ : ∃ c, find (keyOf nodes) (cellAt (2 ^ m) env.width env.hash)
      (2 ^ m * env.width) cells e = .free c := by
    rcases h.find_cases (cellAt_fullCycle hpos) e with ⟨c, -, hmem, -⟩ | ⟨c, hfree, -⟩ |
      ⟨-, -, hfull⟩
    · exact absurd hmem hnew
    · exact ⟨c, hfree⟩
    · exact absurd hfull hroom.ne
  refine ⟨c, ?_, h.store hfind hroom hnew hptr hidx _⟩
  have hemp := @groupSearch_of_absent _ _ _ _ _ env.hash cells e m
    (fun c hc hkey => hnew ((h.mem_iff e).mpr ⟨c, hc, hkey⟩)) 0 (2 ^ m)
  rw [groupSearch_eq_find hpos h.probed e, hfind] at hemp
  rw [firstSlot_eq hle, placeLoop_eq htag]
  cases heq : emptySearch (keyOf nodes) (2 ^ m) env.width (env.hash e) cells 0 (2 ^ m) with
  | none =>
    rw [heq] at hemp
    cases hemp
  | some c' =>
    rw [heq] at hemp
    injection hemp with hc
    rw [hc]

theorem Sound.grow_step (h : env.Sound p) {s : Cells × Nat}
    (hle : 2 ^ m * env.width ≤ maxCapacity) (hroom : p.count < 2 ^ m * env.width)
    (hi : i < p.capacity) (hs : env.Grown p m i s) :
    ∃ s', env.place p.nodes (2 ^ m * env.width) s (p.cells i) = .ok s' ∧
      env.Grown p m (i + 1) s' := by
  obtain ⟨m₀, hcap, htab⟩ := h.table
  have hgroups : 2 ^ m * env.width / env.width = 2 ^ m := Nat.mul_div_cancel _ env.width_pos
  have hsucc := keysBelow_succ p.nodes p.cells i
  cases hcell : p.cells i with
  | none =>
    refine ⟨s, rfl, ?_⟩
    have hsame : keysBelow p.nodes p.cells (i + 1) = keysBelow p.nodes p.cells i := by
      rw [hsucc, hcell]
      exact append_nil _
    exact ⟨hsame ▸ hs.table, hs.tagged, hsame ▸ hs.count⟩
  | some cell =>
    obtain ⟨tag, ptr⟩ := cell
    obtain ⟨e, he, rfl⟩ := h.tagged _ _ _ hcell
    have hkey : keyOf p.nodes (p.cells i) = some e := by
      rw [hcell]
      exact he
    have hhol : Holds (keyOf p.nodes) (2 ^ m₀ * env.width) p.cells i e := ⟨hcap ▸ hi, hkey⟩
    have hnew : e ∉ keysBelow p.nodes p.cells i := by
      intro hmem
      obtain ⟨c, hc, hkey'⟩ := mem_keysBelow.mp hmem
      have := htab.probed.unique ⟨hcap ▸ hc.trans hi, hkey'⟩ hhol
      exact ne_of_lt hc this
    have hidx : p.nodes.idxOf e = ptr := by
      have hval := htab.val_eq i e hhol
      rw [hcell] at hval
      exact hval.symm
    -- the nodes of the cells so far are some of the nodes
    have hfew : (keysBelow p.nodes p.cells i).length < 2 ^ m * env.width := by
      refine lt_of_le_of_lt ?_ hroom
      rw [h.count]
      refine (subperm_of_subset hs.table.nodup fun n hn => ?_).length_le
      obtain ⟨c, hc, hkey'⟩ := mem_keysBelow.mp hn
      exact (htab.mem_iff n).mpr ⟨c, hcap ▸ hc.trans hi, hkey'⟩
    obtain ⟨c, hplace, htab'⟩ := hs.table.place hs.tagged hle hfew hnew he hidx
    have hkeys : keysBelow p.nodes p.cells (i + 1) = keysBelow p.nodes p.cells i ++ [e] := by
      rw [hsucc, hkey]
      rfl
    refine ⟨(update s.1 c (some (h2Tag (env.hash e), ptr)), s.2 + 1), ?_,
      hkeys ▸ htab', hs.tagged.store he c, ?_⟩
    · simp only [PoolEnv.place, he, hgroups]
      rw [bind_of_ok hplace]
      rfl
    · rw [hkeys, length_append, ← hs.count]
      rfl

theorem isSwissTableCapacity (hle : 2 ^ m * env.width ≤ maxCapacity) :
    IsSwissTableCapacity (2 ^ m * env.width) ∧ env.width ≤ 2 ^ m * env.width := by
  have hwid : 2 ^ 4 ≤ env.width := Nat.pow_le_pow_right (by decide) env.groupBits_mem.1
  have hmul : env.width ≤ 2 ^ m * env.width := Nat.le_mul_of_pos_left _ (Nat.two_pow_pos m)
  refine ⟨.inr ⟨?_, by omega, hle⟩, hmul⟩
  rw [width, ← pow_add, Nat.log2_two_pow]

/-- **Growing keeps the nodes.** -/
theorem Sound.growTo_ok (h : env.Sound p)
    (hle : 2 ^ m * env.width ≤ maxCapacity) (hload : p.count * 8 ≤ 2 ^ m * env.width * 7) :
    ∃ p', env.growTo p (2 ^ m * env.width) = .ok p' ∧ env.Sound p' ∧ p'.nodes = p.nodes ∧
      p'.capacity = 2 ^ m * env.width := by
  have hpos : 0 < 2 ^ m * env.width := Nat.mul_pos (Nat.two_pow_pos m) env.width_pos
  have hroom : p.count < 2 ^ m * env.width := by omega
  obtain ⟨m₀, hcap, htab⟩ := h.table
  -- the loop goes through all the old cells
  obtain ⟨s, hfold, hs⟩ := foldlM_range_ok (env.Grown p m) (.start env p m)
    fun i t hi ht => h.grow_step hle hroom hi ht
  have hperm : p.nodes.Perm (keysBelow p.nodes p.cells p.capacity) := by
    rw [perm_ext_iff_of_nodup htab.nodup hs.table.nodup]
    intro n
    rw [mem_keysBelow, hcap]
    exact htab.mem_iff n
  refine ⟨{ p with capacity := 2 ^ m * env.width, cells := s.1, count := s.2 }, ?_, ?_, rfl, rfl⟩
  · rw [growTo, if_neg (not_not.mpr (isSwissTableCapacity hle)), bind_of_ok hfold]
    rfl
  · refine ⟨⟨m, rfl, ?_⟩, hle, hs.tagged, ?_, ?_⟩
    · exact hs.table.congr (fun _ => rfl) hperm fun _ _ => rfl
    · exact hs.count.trans hperm.length_eq.symm
    · have hcount : s.2 = p.count := by rw [hs.count, h.count, hperm.length_eq]
      rw [hcount]
      exact hload

/-! ### Requests -/

theorem TableOf.extend
    (h : env.TableOf nodes nodes m cells) (htagg : env.Tagged nodes cells) (n : Node Nat) :
    env.TableOf (nodes ++ [n]) nodes m cells ∧ env.Tagged (nodes ++ [n]) cells ∧
      ∀ c, keyOf (nodes ++ [n]) (cells c) = keyOf nodes (cells c) := by
  have hold : ∀ {ptr : Nat} {e : Node Nat}, nodes[ptr]? = some e →
      (nodes ++ [n])[ptr]? = nodes[ptr]? := fun he =>
    getElem?_append_left (List.getElem?_eq_some_iff.mp he).1
  have hkey : ∀ c, keyOf (nodes ++ [n]) (cells c) = keyOf nodes (cells c) := by
    intro c
    cases hcell : cells c with
    | none => rfl
    | some cell =>
      obtain ⟨e, he, -⟩ := htagg c cell.1 cell.2 hcell
      exact hold he
  refine ⟨h.congr hkey (Perm.refl _) fun k hk => idxOf_append_of_mem hk, ?_, hkey⟩
  intro c tag ptr hcell
  obtain ⟨e, he, htag⟩ := htagg c tag ptr hcell
  exact ⟨e, (hold he).trans he, htag⟩

/-- **A request with room in the table** returns the node that is there, or adds it. -/
theorem Sound.internAt_ok (h : env.Sound p) (hroom : p.count * 8 < p.capacity * 7) (n : Node Nat) :
    ∃ p' ptr, env.internAt p n = .ok (p', ptr) ∧ env.Sound p' ∧
      p'.nodes = (if n ∈ p.nodes then p.nodes else p.nodes ++ [n]) ∧ p'.nodes[ptr]? = some n := by
  obtain ⟨m, hcap, htab⟩ := h.table
  have hpos := env.width_pos
  have hle := h.capacity_le
  have hcyc : FullCycle (cellAt (2 ^ m) env.width env.hash) (2 ^ m * env.width) :=
    cellAt_fullCycle hpos
  have hgroups : p.capacity / env.width = 2 ^ m := by rw [hcap, Nat.mul_div_cancel _ hpos]
  have hprobe : env.probeLoop p n (env.firstSlot p.capacity (env.hash n)) 0
      (p.capacity / env.width) =
      match find (keyOf p.nodes) (cellAt (2 ^ m) env.width env.hash) (2 ^ m * env.width)
        p.cells n with
      | .hit c => .ok (.hit c)
      | .free c => .ok (.free c)
      | .full => .error .endless := by
    rw [hgroups, ← groupSearch_eq_find hpos htab.probed, ← probeLoop_eq hcap h.tagged,
      hcap, firstSlot_eq (hcap ▸ hle)]
  rcases htab.find_cases hcyc n with
    ⟨c, hfind, hmem, hkey, hval⟩ | ⟨c, hfind, hnew, -⟩ | ⟨-, -, hfull⟩
  · rw [hfind] at hprobe
    refine ⟨p, p.nodes.idxOf n, ?_, h, (if_pos hmem).symm, ?_⟩
    · rw [internAt, bind_of_ok hprobe]
      have hptr : ((p.cells c).map Prod.snd).getD 0 = p.nodes.idxOf n := hval
      simp only [hptr]
      rfl
    · exact getElem?_idxOf hmem
  · rw [hfind] at hprobe
    obtain ⟨hext, htag, hkey⟩ := htab.extend h.tagged n
    have hfind' : find (keyOf (p.nodes ++ [n])) (cellAt (2 ^ m) env.width env.hash)
        (2 ^ m * env.width) p.cells n = .free c := (search_congr hkey 0 _).trans hfind
    have hlast : (p.nodes ++ [n])[p.nodes.length]? = some n := by
      rw [getElem?_append_right le_rfl, Nat.sub_self]
      rfl
    have hlen : p.nodes.length < 2 ^ m * env.width := by
      rw [← h.count]
      omega
    refine ⟨_, p.nodes.length, by rw [internAt, bind_of_ok hprobe]; rfl, ?_, (if_neg hnew).symm,
      hlast⟩
    refine ⟨⟨m, hcap, hext.store hfind' hlen hnew hlast ?_ _⟩, hle, htag.store hlast c, ?_, ?_⟩
    · rw [idxOf_append_of_notMem hnew, idxOf_cons_self, add_zero]
    · simp only [length_append, h.count]
      rfl
    · -- the capacity is a multiple of eight
      have hmul : 8 ∣ p.capacity := by
        have hbits : 3 ≤ env.groupBits := le_trans (by decide) env.groupBits_mem.1
        rw [hcap]
        exact Dvd.dvd.mul_left (Nat.pow_dvd_pow 2 hbits) _
      show (p.count + 1) * 8 ≤ p.capacity * 7
      omega
  · rw [← h.count] at hfull
    omega

/-- The number of nodes at which the largest table is full. -/
def maxNodes : Nat := 7 * 2 ^ 27

/-- **A request below the limit succeeds.** -/
theorem Sound.intern_ok (h : env.Sound p) (hlt : p.count < maxNodes) (n : Node Nat) :
    ∃ p' ptr, env.internNode p n = .ok (p', ptr) ∧ env.Sound p' ∧
      p'.nodes = (if n ∈ p.nodes then p.nodes else p.nodes ++ [n]) ∧ p'.nodes[ptr]? = some n := by
  by_cases hfull : p.capacity * 7 ≤ p.count * 8
  · obtain ⟨m, hcap, -⟩ := h.table
    have hload := h.load
    -- a full table below the limit is at most half as large as the largest one
    have hhalf : 2 ^ (m + 1) * env.width ≤ maxCapacity := by
      have hsmall : 2 ^ m * env.width < 2 ^ 30 := by
        rw [maxNodes] at hlt
        omega
      rw [width, ← pow_add] at hsmall ⊢
      refine Nat.pow_le_pow_right (by decide) ?_
      have := (Nat.pow_lt_pow_iff_right (by decide)).mp hsmall
      omega
    have hdoub : p.capacity * 2 = 2 ^ (m + 1) * env.width := by
      rw [hcap]
      exact Nat.mul_right_comm _ _ _
    obtain ⟨p₁, hgrow, hsound, hnod, hcap₁⟩ := h.growTo_ok hhalf (by omega)
    have hcount : p₁.count = p.count := by rw [hsound.count, h.count, hnod]
    have hpos : 0 < p.capacity := by
      rw [hcap]
      exact Nat.mul_pos (Nat.two_pow_pos m) env.width_pos
    obtain ⟨p', ptr, hint, hrest⟩ := hsound.internAt_ok (by omega) n
    rw [hnod] at hrest
    refine ⟨p', ptr, ?_, hrest⟩
    rw [internNode, if_pos hfull, rehash, hdoub, bind_of_ok hgrow]
    exact hint
  · obtain ⟨p', ptr, hint, hrest⟩ := h.internAt_ok (Nat.lt_of_not_le hfull) n
    refine ⟨p', ptr, ?_, hrest⟩
    rw [internNode, if_neg hfull]
    exact hint

/-- **A request at the limit fails**, whether the node is there or not. -/
theorem Sound.intern_full (h : env.Sound p) (hge : maxNodes ≤ p.count) (n : Node Nat) :
    env.internNode p n = .error .contract := by
  have hload := h.load
  have hle := h.capacity_le
  have hcap : p.capacity = 2 ^ 30 := by
    rw [maxNodes] at hge
    rw [maxCapacity] at hle
    omega
  have hfull : p.capacity * 7 ≤ p.count * 8 := by
    rw [maxNodes] at hge
    omega
  have hno : ¬ (IsSwissTableCapacity (p.capacity * 2) ∧ env.width ≤ p.capacity * 2) := by
    rintro ⟨hzero | ⟨-, -, hle'⟩, -⟩
    · omega
    · rw [maxCapacity] at hle'
      omega
  rw [internNode, if_pos hfull, rehash, growTo, if_pos hno]
  rfl

/-! ### Whole runs -/

theorem doubleTo_spec (hneed : needed ≤ maxCapacity) (fuel k : Nat) (hk : 2 ^ k ≤ maxCapacity) :
    ∃ k', k ≤ k' ∧ doubleTo needed (2 ^ k) fuel = 2 ^ k' ∧ 2 ^ k' ≤ maxCapacity ∧
      (needed ≤ 2 ^ (k + fuel) → needed ≤ 2 ^ k') := by
  induction fuel generalizing k with
  | zero => exact ⟨k, Nat.le_refl k, rfl, hk, id⟩
  | succ fuel ih =>
    rw [doubleTo]
    by_cases hlt : 2 ^ k < needed
    · have hnext : 2 ^ (k + 1) ≤ maxCapacity := by
        have hpow : 2 ^ k < 2 ^ 30 := hlt.trans_le hneed
        exact Nat.pow_le_pow_right (by decide) ((Nat.pow_lt_pow_iff_right (by decide)).mp hpow)
      obtain ⟨k', hle, heq, hmax, henough⟩ := ih (k + 1) hnext
      refine ⟨k', by omega, ?_, hmax, fun h => henough ?_⟩
      · rw [if_pos hlt, Nat.shiftLeft_eq]
        exact heq
      · rwa [add_assoc, add_comm 1 fuel]
    · rw [if_neg hlt]
      exact ⟨k, Nat.le_refl k, rfl, hk, fun _ => Nat.le_of_not_lt hlt⟩

theorem width_le (env : PoolEnv) : env.width ≤ maxCapacity := by
  exact Nat.pow_le_pow_right (by decide) (env.groupBits_mem.2.trans (by decide))

theorem target_spec (env : PoolEnv) (hneed : needed ≤ maxCapacity) :
    ∃ m, doubleTo needed env.width needed = 2 ^ m * env.width ∧
      2 ^ m * env.width ≤ maxCapacity ∧ needed ≤ 2 ^ m * env.width := by
  obtain ⟨k', hle, heq, hmax, henough⟩ := doubleTo_spec hneed needed env.groupBits env.width_le
  have hpow : 2 ^ (k' - env.groupBits) * env.width = 2 ^ k' := by
    rw [width, ← pow_add, Nat.sub_add_cancel hle]
  refine ⟨k' - env.groupBits, ?_, ?_, ?_⟩
  · rw [hpow]
    exact heq
  · rwa [hpow]
  · rw [hpow]
    refine henough (le_of_lt (Nat.lt_two_pow_self.trans_le ?_))
    exact Nat.pow_le_pow_right (by decide) le_add_self

/-- **A reservation within the budget succeeds**, and any other one fails its contract. -/
theorem Sound.reserve_cases (h : env.Sound p) (entries : Nat) :
    (∃ p', env.reserve p entries = .ok p' ∧ env.Sound p' ∧ p'.nodes = p.nodes ∧
      entries * 8 ≤ p'.capacity * 7) ∨
    maxNodes < entries ∧ env.reserve p entries = .error .contract := by
  have hmax : maxCapacity * 7 / 8 = maxNodes := by decide
  rw [reserve, hmax]
  by_cases hbig : maxNodes < entries
  · exact .inr ⟨hbig, if_pos hbig⟩
  · rw [if_neg hbig]
    have hneed : (entries * 8 + 6) / 7 ≤ maxCapacity := by
      rw [maxNodes] at hbig
      rw [maxCapacity]
      omega
    obtain ⟨m, htar, hle, henough⟩ := env.target_spec hneed
    simp only [htar]
    left
    by_cases hgrow : p.capacity < 2 ^ m * env.width
    · have hload := h.load
      obtain ⟨p', heq, hsound, hnod, hcap⟩ := h.growTo_ok hle (by omega)
      exact ⟨p', by rw [if_pos hgrow]; exact heq, hsound, hnod, by omega⟩
    · exact ⟨p, if_neg hgrow, h, rfl, by omega⟩

theorem Sound.call_ok (h : env.Sound p) {c : Call} (hcall : env.call p c = .ok p') :
    env.Sound p' ∧ p.nodes <+: p'.nodes := by
  cases c with
  | intern n =>
    rcases lt_or_ge p.count maxNodes with hlt | hge
    · obtain ⟨p₁, ptr, hint, hsound, hnod, -⟩ := h.intern_ok hlt n
      rw [call, bind_of_ok hint] at hcall
      obtain rfl : p₁ = p' := Except.ok.inj hcall
      refine ⟨hsound, ?_⟩
      rw [hnod]
      split
      · exact prefix_refl _
      · exact prefix_append _ _
    · rw [call, h.intern_full hge n] at hcall
      cases hcall
  | reserve entries =>
    rcases h.reserve_cases entries with ⟨p₁, heq, hsound, hnod, -⟩ | ⟨-, heq⟩
    · rw [call, heq] at hcall
      obtain rfl : p₁ = p' := Except.ok.inj hcall
      exact ⟨hsound, hnod ▸ prefix_refl _⟩
    · rw [call, heq] at hcall
      cases hcall

theorem Sound.calls_ok (h : env.Sound p) {calls : List Call}
    (hcal : calls.foldlM env.call p = .ok p') : env.Sound p' ∧ p.nodes <+: p'.nodes := by
  refine foldlM_inv (fun q => env.Sound q ∧ p.nodes <+: q.nodes) ⟨h, prefix_refl _⟩ ?_ hcal
  rintro q c q' - ⟨hsound, hkept⟩ hcall
  obtain ⟨hsound', hkept'⟩ := hsound.call_ok hcall
  exact ⟨hsound', hkept.trans hkept'⟩

theorem Sound.intern_all (h : env.Sound p) {new : List (Node Nat)}
    (hnodup : (p.nodes ++ new).Nodup) (hroom : (p.nodes ++ new).length ≤ maxNodes) :
    ∃ p', (new.map Call.intern).foldlM env.call p = .ok p' ∧ env.Sound p' ∧
      p'.nodes = p.nodes ++ new := by
  induction new generalizing p with
  | nil => exact ⟨p, rfl, h, (append_nil _).symm⟩
  | cons n new ih =>
    have hlt : p.count < maxNodes := by
      rw [h.count]
      simp only [length_append, length_cons] at hroom
      omega
    have hnew : n ∉ p.nodes := fun hmem =>
      (nodup_append.mp hnodup).2.2 n hmem n mem_cons_self rfl
    obtain ⟨p₁, ptr, hint, hsound, hnod, -⟩ := h.intern_ok hlt n
    rw [if_neg hnew] at hnod
    have hass : p₁.nodes ++ new = p.nodes ++ n :: new := by
      rw [hnod, append_assoc, singleton_append]
    obtain ⟨p', hfold, hsound', hnod'⟩ := ih hsound (hass ▸ hnodup) (hass ▸ hroom)
    refine ⟨p', ?_, hsound', hnod'.trans hass⟩
    have hcall : env.call p (.intern n) = .ok p₁ := by
      rw [call, bind_of_ok hint]
      rfl
    rw [map_cons, foldlM_cons, bind_of_ok hcall]
    exact hfold

theorem sound_empty (hle : 2 ^ m * env.width ≤ maxCapacity) :
    env.Sound { capacity := 2 ^ m * env.width } :=
  ⟨⟨m, rfl, .empty _ fun _ _ => rfl⟩, hle, nofun, rfl, zero_le⟩

theorem seeds_nodup : seeds.Nodup := by decide +kernel

theorem seeds_length : seeds.length = 258 := by simp [seeds]

/-- **A new pool holds the seeds.** -/
theorem newPool_ok (env : PoolEnv) (hle : initialCapacity ≤ maxCapacity) :
    ∃ p, env.newPool initialCapacity = .ok p ∧ env.Sound p ∧ p.nodes = seeds := by
  obtain ⟨m, htar, hmax, -⟩ := env.target_spec hle
  have hswiss := (@isSwissTableCapacity env m hmax).1
  obtain ⟨p, hfold, hsound, hnod⟩ := (@sound_empty env m hmax).intern_all
    (by rw [nil_append]; exact seeds_nodup)
    (by rw [nil_append, seeds_length]; decide)
  refine ⟨p, ?_, hsound, hnod⟩
  rw [newPool, if_neg hle.not_gt]
  simp only [htar]
  rw [if_neg (not_not.mpr hswiss), ← hfold, foldlM_map]
  rfl

theorem run_sound {calls : List Call}
    (hrun : env.run initialCapacity calls = .ok p) : env.Sound p := by
  rw [run] at hrun
  rcases lt_or_ge maxCapacity initialCapacity with hlt | hge
  · rw [newPool, if_pos hlt] at hrun
    cases hrun
  · obtain ⟨p₀, hnew, hsound, -⟩ := env.newPool_ok hge
    rw [bind_of_ok hnew] at hrun
    exact (hsound.calls_ok hrun).1

/-- **Hash-consing.**  After any sequence of calls no two nodes have the same fields, and no
probe loop runs for ever.  A structure that was built before is returned again, with its old
pointer, exactly as long as the pool holds fewer than `maxNodes` nodes. -/
theorem pool_hashConses (env : PoolEnv) (initialCapacity : Nat) (calls : List Call) (p : Pool)
    (hrun : env.run initialCapacity calls = .ok p) :
    p.nodes.Nodup ∧ (∀ n, env.internNode p n ≠ .error .endless) ∧
    (∀ entries, env.reserve p entries ≠ .error .endless) ∧
    ∀ before n after p₀ p₁ ptr, calls = before ++ .intern n :: after →
      env.run initialCapacity before = .ok p₀ → env.internNode p₀ n = .ok (p₁, ptr) →
      ((∃ p', env.internNode p n = .ok (p', ptr) ∧ p'.nodes = p.nodes) ↔
        p.nodes.length < maxNodes) := by
  have hsound := run_sound hrun
  refine ⟨hsound.nodup, fun n hn => ?_, fun entries he => ?_, ?_⟩
  · rcases lt_or_ge p.count maxNodes with hlt | hge
    · obtain ⟨p', ptr, heq, -⟩ := hsound.intern_ok hlt n
      rw [heq] at hn
      cases hn
    · rw [hsound.intern_full hge] at hn
      cases hn
  · rcases hsound.reserve_cases entries with ⟨p', heq, -⟩ | ⟨-, heq⟩
    · rw [heq] at he
      cases he
    · rw [heq] at he
      cases he
  · intro before n after p₀ p₁ ptr hcalls hbefore hintern
    have hsound₀ := run_sound hbefore
    have hcall : env.call p₀ (.intern n) = .ok p₁ := by
      rw [call, bind_of_ok hintern]
      rfl
    obtain ⟨hsound₁, -⟩ := hsound₀.call_ok hcall
    -- the node is still where it was put
    have hptr : p₁.nodes[ptr]? = some n := by
      rcases lt_or_ge p₀.count maxNodes with hlt | hge
      · obtain ⟨p', ptr', heq, -, -, hat⟩ := hsound₀.intern_ok hlt n
        rw [hintern] at heq
        cases heq
        exact hat
      · rw [hsound₀.intern_full hge] at hintern
        cases hintern
    have hrest : after.foldlM env.call p₁ = .ok p := by
      rw [run] at hbefore hrun
      cases hnew : env.newPool initialCapacity with
      | error e =>
        rw [hnew] at hrun
        cases hrun
      | ok start =>
        rw [bind_of_ok hnew] at hbefore hrun
        rw [hcalls, foldlM_append, bind_of_ok hbefore, foldlM_cons, bind_of_ok hcall] at hrun
        exact hrun
    have hstill : p.nodes[ptr]? = some n := by
      obtain ⟨more, hmore⟩ := (hsound₁.calls_ok hrest).2
      rw [← hmore, getElem?_append_left (List.getElem?_eq_some_iff.mp hptr).1]
      exact hptr
    rw [← hsound.count]
    constructor
    · rintro ⟨p', heq, -⟩
      by_contra hge
      rw [hsound.intern_full (Nat.le_of_not_lt hge)] at heq
      cases heq
    · intro hlt
      obtain ⟨p', ptr', heq, -, hnodes, hat⟩ := hsound.intern_ok hlt n
      rw [if_pos (mem_of_getElem? hstill)] at hnodes
      rw [hnodes] at hat
      have hsame : ptr' = ptr := by
        have hlt' := (List.getElem?_eq_some_iff.mp hat).1
        exact (getElem?_inj hlt' hsound.nodup).mp (hat.trans hstill.symm)
      exact ⟨p', hsame ▸ heq, hnodes⟩

/-- The sixteen-wide groups of the portable build. -/
def portable : PoolEnv where
  groupBits := 4
  groupBits_mem := by decide
  addr := id

def bigInteger (i : Nat) : Node Nat where
  op := .integer
  flags := integerFlags (128 + i)
  payload := 128 + i
  args := []
  args_le := Nat.zero_le maxArgs

theorem pool_hashConses_reserved :
    ∃ p, portable.run 0 [.reserve 1000, .intern (bigInteger 0)] = .ok p ∧ p.nodes.Nodup := by
  obtain ⟨p, hnew, hsound, hnodes⟩ := portable.newPool_ok (Nat.zero_le maxCapacity)
  rcases hsound.reserve_cases 1000 with ⟨p₁, hreserve, hsound₁, hnodes₁, -⟩ | ⟨hbig, -⟩
  · have hlt : p₁.count < maxNodes := by
      rw [hsound₁.count, hnodes₁, hnodes, seeds_length]
      decide
    obtain ⟨p₂, ptr, hintern, -⟩ := hsound₁.intern_ok hlt (bigInteger 0)
    have hrun : portable.run 0 [.reserve 1000, .intern (bigInteger 0)] = .ok p₂ := by
      rw [run, bind_of_ok hnew, foldlM_cons, call, bind_of_ok hreserve, foldlM_cons, call,
        bind_of_ok hintern]
      rfl
    exact ⟨p₂, hrun, (pool_hashConses portable 0 _ p₂ hrun).1⟩
  · rw [maxNodes] at hbig
    omega

theorem bigIntegers_nodup (k : Nat) : (seeds ++ (range k).map bigInteger).Nodup := by
  refine nodup_append.mpr ⟨seeds_nodup, ?_, ?_⟩
  · refine nodup_range.map fun i j heq => ?_
    have hpay := congrArg Node.payload heq
    simp only [bigInteger] at hpay
    omega
  · rintro n hn n' hn' rfl
    obtain ⟨i, -, rfl⟩ := mem_map.mp hn'
    -- no seed has a payload of 128 or more
    rcases mem_append.mp hn with hn | hn
    · have hop : ∀ m ∈ [({ op := .boolTrue, flags := .isBoolean } : Node Nat),
          { op := .boolFalse, flags := .isBoolean }], m.op ≠ .integer := by decide
      exact hop _ hn rfl
    · obtain ⟨j, hj, heq⟩ := mem_map.mp hn
      have hpay := congrArg Node.payload heq
      simp only [bigInteger] at hpay
      have hlt := mem_range.mp hj
      omega

theorem fill_ok (env : PoolEnv) {k : Nat} (hk : 258 + k ≤ maxNodes) :
    ∃ p, env.run 0 (((range k).map bigInteger).map Call.intern) = .ok p ∧ env.Sound p ∧
      p.nodes = seeds ++ (range k).map bigInteger := by
  obtain ⟨p, hnew, hsound, hnod⟩ := env.newPool_ok (Nat.zero_le maxCapacity)
  obtain ⟨p', hfold, hsound', hnod'⟩ := hsound.intern_all
    (hnod ▸ bigIntegers_nodup k) (by
      rw [hnod, length_append, seeds_length, length_map, length_range]
      exact hk)
  refine ⟨p', ?_, hsound', hnod ▸ hnod'⟩
  rw [run, bind_of_ok hnew]
  exact hfold

/-- **A full pool refuses a node that it holds**: the true node, at pointer 0. -/
theorem full_pool_refuses :
    ∃ p, portable.run 0 (((range (maxNodes - 258)).map bigInteger).map Call.intern) = .ok p ∧
      p.nodes[0]? = some { op := .boolTrue, flags := .isBoolean } ∧
      portable.internNode p { op := .boolTrue, flags := .isBoolean } = .error .contract := by
  have hroom : 258 ≤ maxNodes := by decide
  obtain ⟨p, hrun, hsound, hnodes⟩ := portable.fill_ok (le_of_eq (Nat.add_sub_cancel' hroom))
  refine ⟨p, hrun, ?_, hsound.intern_full ?_ _⟩
  · rw [hnodes]
    rfl
  · rw [hsound.count, hnodes, length_append, seeds_length, length_map, length_range,
      Nat.add_sub_cancel' hroom]

end PoolEnv
end Crucible
