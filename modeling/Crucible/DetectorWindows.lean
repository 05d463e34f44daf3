import Crucible.DetectorTable

/-! # The windows of the history

While the detector searches, its table and its links cover exactly the windows of the
history.  `Windowed` states this for the windows that start in `[lo, hi)`.  A new window
is linked at the end, the oldest windows are forgotten at the start, and a rebuild covers
the whole history again.  Each of them ends as long as the table has an unused slot.
-/
namespace Crucible
open Function
namespace IterationDetector
open OpenAddressing

/-- The table and the links cover the windows that start in `[lo, hi)`. -/
structure Windowed (d : IterationDetector) (key : Nat → Nat) (lo hi : Nat) : Prop where
  indexed : d.Indexed (windowEntries (print key) lo hi)
  links : ∀ s, lo ≤ s → s < hi → Link (print key) lo s (d.earlierLinks (s &&& d.historyMask))

section
variable {d : IterationDetector} {key : Nat → Nat} {fp : Nat → Nat} {lo hi : Nat}

theorem Indexed.card_le (h : d.Indexed (windowEntries fp lo hi)) :
    (occupied slotKey (d.tableMask + 1) d.table).card ≤ hi - lo := by
  refine h.stores.card_le (fun e => e.startPlusOne - 1) ?_ ?_
  · rintro e ⟨t, rfl, hlo, hhi, -⟩
    exact ⟨hlo, hhi⟩
  · rintro e e' ⟨t, rfl, -⟩ ⟨t', rfl, -⟩ heq
    obtain rfl : t = t' := heq
    rfl

theorem Indexed.hasRoom (h : d.Indexed (windowEntries fp lo hi))
    (hroom : hi - lo < d.tableMask + 1) : d.HasRoom :=
  Stores.exists_unused (h.card_le.trans_lt hroom)

theorem Link.eq_succ {s t link : Nat} (h : Link fp lo s link) (hlo : lo ≤ t) (hlt : t < s)
    (heq : fp t = fp s) (hnew : ∀ t', t < t' → t' < s → fp t' ≠ fp s) : link = t + 1 := by
  have hgt : t < link := Nat.lt_of_not_le fun hle => h.skips t hlo hlt hle heq
  obtain ⟨hle, hsame⟩ := h.earlier (Nat.ne_of_gt (Nat.zero_lt_of_lt hgt))
  by_contra hne
  exact hnew (link - 1) (by omega) (by omega) hsame

theorem windowEntries_stop (fp : Nat → Nat) (h : hi ≤ lo) :
    windowEntries fp lo lo = windowEntries fp lo hi := by
  rw [windowEntries_empty fp (Nat.le_refl lo), windowEntries_empty fp h]

/-- What a linked window leaves. -/
structure LinkedAt (d d' : IterationDetector) (key : Nat → Nat) (lo hi link : Nat) : Prop where
  eq : ∃ table used links, d' = { d with table, tableUsed := used, earlierLinks := links }
  link : Link (print key) lo hi link
  windows : d'.Windowed key lo (hi + 1)

/-- **A window is linked**, unless the table is full of others. -/
theorem linkWindow_cases (h : d.Windowed key lo hi) (hprin : d.Prints key) (hlo : lo ≤ hi)
    (hbase : d.base ≤ hi) (hpos : hi + detectorK ≤ d.pos) (hpow : PowMask d.historyMask)
    (hring : hi - lo < d.historyMask + 1) :
    (d.linkWindow hi = .error .endless ∧ ¬ d.Answers (print key hi)) ∨
      ∃ d' link, d.linkWindow hi = .ok (d', link) ∧ LinkedAt d d' key lo hi link := by
  rcases tableExchange_cases h.indexed (d.windowFingerprint hi) hi with
    ⟨hend, hfull⟩ | ⟨table, used, link, hexc, hind, hent⟩
  · rw [hprin.windowFingerprint hbase hpos] at hfull
    refine .inl ⟨?_, hfull⟩
    rw [linkWindow, hend]
    rfl
  rw [hprin.windowFingerprint hbase hpos] at hexc hind hent
  have hlink := link_of_entry hent
  rw [windowEntries_succ (print key) hlo] at hind
  refine .inr ⟨{ d with
    table
    tableUsed := used
    earlierLinks := update d.earlierLinks (hi &&& d.historyMask) link }, link, ?_,
    ⟨_, _, _, rfl⟩, hlink, ⟨hind.pow, hind.lt, hind.stores⟩, ?_⟩
  · rw [linkWindow, hprin.windowFingerprint hbase hpos]
    exact bind_of_ok hexc
  · intro s hs hs'
    show Link (print key) lo s
      (update d.earlierLinks (hi &&& d.historyMask) link (s &&& d.historyMask))
    rcases Nat.lt_succ_iff_lt_or_eq.mp hs' with hlt | rfl
    · rw [update_of_ne (Ring.slot_ne hpow hlt (by omega))]
      exact h.links s hs hlt
    · rw [update_self]
      exact hlink

/-- **A rebuild** covers the windows of the history in a new table. -/
theorem rebuildTable_spec (hprin : d.Prints key) (size stop : Nat) (hsize : PowMask (size - 1))
    (hlt : size - 1 < 2 ^ 64) (hroom : stop - d.base ≤ size) (hstop : stop ≤ d.pos + 1 - detectorK)
    (hpow : PowMask d.historyMask) (hring : stop - d.base ≤ d.historyMask + 1) :
    ∃ table used links, d.rebuildTable size stop = .ok
        { d with table, tableMask := size - 1, tableUsed := used, earlierLinks := links } ∧
      ({ d with table, tableMask := size - 1, tableUsed := used, earlierLinks := links } :
        IterationDetector).Windowed key d.base stop := by
  -- after `n` rounds the first `n` windows of the history are covered
  have hloop := foldlM_range_ok
    (f := fun d i => d.linkWindow (d.base + i) >>= fun out => .ok out.1) (n := stop - d.base)
    (s := { d with table := fun _ => {}, tableMask := size - 1, tableUsed := 0 })
    (fun n t => ∃ table used links,
      t = { d with table, tableMask := size - 1, tableUsed := used, earlierLinks := links } ∧
        t.Windowed key d.base (d.base + n)) ?_ ?_
  · obtain ⟨_, hfold, table, used, links, rfl, hwin⟩ := hloop
    refine ⟨table, used, links, hfold, ?_⟩
    rcases le_total d.base stop with hle | hge
    · rwa [Nat.add_sub_cancel' hle] at hwin
    · rw [Nat.sub_eq_zero_of_le hge] at hwin
      refine ⟨?_, fun s _ _ => by omega⟩
      rw [← windowEntries_stop (print key) hge]
      exact hwin.indexed
  · refine ⟨fun _ => {}, 0, d.earlierLinks, rfl, ⟨hsize, hlt, ?_⟩, fun s _ _ => by omega⟩
    rw [windowEntries_empty (print key) (show d.base + 0 ≤ d.base from le_rfl)]
    exact stores_empty fun _ _ => rfl
  · rintro n _ hn ⟨table, used, links, rfl, hwin⟩
    have hfree := hwin.indexed.hasRoom (show d.base + n - d.base < size - 1 + 1 by omega)
    obtain ⟨d', link, hlink, ⟨table', used', links', rfl⟩, -, hwin'⟩ :=
      (linkWindow_cases hwin hprin le_self_add le_self_add
        (show d.base + n + detectorK ≤ d.pos by omega) hpow
        (show d.base + n - d.base < d.historyMask + 1 by omega)).resolve_left
        fun hend => hend.2 (hfree.answers _)
    exact ⟨_, bind_of_ok hlink, table', used', links', rfl, hwin'⟩

/-- **The oldest windows are forgotten**, unless the table has no unused slot. -/
theorem forgetBefore_cases (hper : d.period = 0) (h : d.Windowed key d.base hi)
    (hprin : d.Prints key) {newBase : Nat} (hnew : d.base ≤ newBase)
    (hpos : newBase + detectorK ≤ d.pos + 1) :
    (d.forgetBefore newBase = .error .endless ∧ ¬ hi - d.base < d.tableMask + 1) ∨
    ∃ table used,
      d.forgetBefore newBase = .ok { d with table, tableUsed := used, base := newBase } ∧
      ({ d with table, tableUsed := used, base := newBase } :
        IterationDetector).Windowed key newBase hi := by
  rw [forgetBefore, forgetWindows, if_pos hper]
  have hloop := foldlM_range_cases (n := newBase - d.base) (s := d)
    (f := fun (d : IterationDetector) i =>
      if d.base + i + detectorK ≤ d.pos then
        d.tableRemoveNewest (d.windowFingerprint (d.base + i)) (d.base + i)
      else .ok d)
    (B := fun e => e = .endless ∧ ¬ hi - d.base < d.tableMask + 1)
    (fun n t => ∃ table used, t = { d with table, tableUsed := used } ∧
      t.Windowed key (d.base + n) hi) ⟨d.table, d.tableUsed, rfl, h⟩ ?_
  · rcases hloop with ⟨_, hfold, rfl, hfull⟩ | ⟨_, hfold, table, used, rfl, hwin⟩
    · rw [hfold]
      exact .inl ⟨rfl, hfull⟩
    · rw [Nat.add_sub_cancel' hnew] at hwin
      exact .inr ⟨table, used, bind_of_ok hfold, ⟨hwin.indexed.pow, hwin.indexed.lt,
        hwin.indexed.stores⟩, hwin.links⟩
  · rintro n _ hn ⟨table, used, rfl, hwin⟩
    have hprin' : ({ d with table, tableUsed := used } : IterationDetector).Prints key := hprin
    have hprint := hprin'.windowFingerprint (show d.base ≤ d.base + n by omega)
      (show d.base + n + detectorK ≤ d.pos by omega)
    have hrem := tableRemoveNewest_cases hwin.indexed (print key (d.base + n)) (d.base + n)
    rw [if_pos (show d.base + n + detectorK ≤ d.pos by omega), hprint]
    rcases hrem with ⟨hend, hfull⟩ | ⟨table', used', hrem, hind⟩
    · refine .inl ⟨_, hend, rfl, fun hroom => hfull (hwin.indexed.hasRoom ?_)⟩
      show hi - (d.base + n) < d.tableMask + 1
      omega
    · rw [windowEntries_forget] at hind
      refine .inr ⟨_, hrem, table', used', rfl, hind, fun s hs hs' => ?_⟩
      exact (hwin.links s (Nat.le_of_succ_le hs) hs').mono (Nat.le_succ _)

end

end IterationDetector
end Crucible
