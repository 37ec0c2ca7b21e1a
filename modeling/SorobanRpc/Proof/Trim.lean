import SorobanRpc.Db.Ingest
import Mathlib.Order.Interval.Finset.Nat
/-!
# The retention window

`trimEvents(latestLedgerSeq, retentionWindow)` keeps the ledgers `s` with
`latestLedgerSeq < s + retentionWindow`: the last `retentionWindow` ledgers up to the latest. It
computes this in `uint32` arithmetic, and `latestLedgerSeq + 1` wraps at the top of the range,
where the trim deletes nothing. Below the top, `trimEvents_eq_filter` is the exact statement.

The event-table migration picks its own first ledger, `latestLedger - retentionWindow`, one below
the first ledger the trim keeps.
-/

namespace SorobanRpc

theorem trimEvents_subset {handler : EventHandler} {latestLedgerSeq retentionWindow : UInt32}
    {events : List EventRow} {e : EventRow}
    (h : e ∈ (handler.trimEvents latestLedgerSeq retentionWindow events).1) : e ∈ events := by
  unfold EventHandler.trimEvents at h
  split at h
  · exact h
  · split at h
    · exact h
    · split at h
      · exact h
      · exact (List.mem_filter.mp h).1

theorem uint32_toNat_add_one {a : UInt32} (ha : a.toNat + 1 < 2 ^ 32) : (a + 1).toNat = a.toNat + 1 := by
  rw [uint32_toNat_add, uint32_toNat_one, Nat.mod_eq_of_lt ha]

/-- Whatever the statement cache answers, a trim keeps or deletes the rows of a ledger all
together, by a rule that does not depend on the table. -/
theorem trimEvents_filter (handler : EventHandler) (latestLedgerSeq retentionWindow : UInt32) :
    ∃ keep : UInt32 → Bool, ∀ events : List EventRow,
      (handler.trimEvents latestLedgerSeq retentionWindow events).1 =
        events.filter fun e => keep e.ledgerSequence := by
  by_cases hskip : latestLedgerSeq + 1 ≤ retentionWindow
  · exact ⟨fun _ => true, fun events => by simp [EventHandler.trimEvents, hskip]⟩
  rcases hcache : handler.stmtCache with _ | cache
  · exact ⟨fun _ => true, fun events => by simp [EventHandler.trimEvents, hskip, hcache]⟩
  cases hexec : cache.exec 0 with
  | some err =>
    exact ⟨fun _ => true, fun events => by simp [EventHandler.trimEvents, hskip, hcache, hexec]⟩
  | none =>
    exact ⟨fun seq => !decide (seq < latestLedgerSeq + 1 - retentionWindow), fun events => by
      simp [EventHandler.trimEvents, hskip, hcache, hexec]⟩

/-- Whatever the statement cache answers, a trim keeps the rows of every ledger `s` with
`latestLedgerSeq < s + retentionWindow`, also where `latestLedgerSeq + 1` wraps. -/
theorem trimEvents_keeps_ledger (handler : EventHandler) {latestLedgerSeq retentionWindow : UInt32}
    {events : List EventRow} {e : EventRow} (he : e ∈ events)
    (hwindow : latestLedgerSeq.toNat < e.ledgerSequence.toNat + retentionWindow.toNat) :
    e ∈ (handler.trimEvents latestLedgerSeq retentionWindow events).1 := by
  unfold EventHandler.trimEvents
  split
  · exact he
  · rename_i hrun
    have hrun : ¬(latestLedgerSeq + 1).toNat ≤ retentionWindow.toNat := hrun
    have hnowrap : latestLedgerSeq.toNat + 1 < 2 ^ 32 := by
      refine Nat.lt_of_le_of_ne (uint32_toNat_lt latestLedgerSeq) fun hwrap => hrun ?_
      rw [uint32_toNat_add, uint32_toNat_one, hwrap, Nat.mod_self]
      exact Nat.zero_le _
    have hsucc := uint32_toNat_add_one hnowrap
    rw [hsucc] at hrun
    have hcut : (latestLedgerSeq + 1 - retentionWindow).toNat =
        latestLedgerSeq.toNat + 1 - retentionWindow.toNat := by
      have hw := uint32_toNat_lt retentionWindow
      rw [uint32_toNat_sub, hsucc]
      omega
    split
    · exact he
    · split
      · exact he
      · refine List.mem_filter.mpr ⟨he, ?_⟩
        simp only [Bool.not_eq_true', decide_eq_false_iff_not, uint32_lt_iff, hcut]
        omega

/-- Below the top of the `uint32` range, a trim that runs deletes exactly the rows of the ledgers
`s` with `s + retentionWindow ≤ latestLedgerSeq`, and keeps the others in their order. -/
theorem trimEvents_eq_filter {handler : EventHandler} {cache : StmtCache}
    (hcache : handler.stmtCache = some cache) (hexec : cache.exec 0 = none)
    {latestLedgerSeq retentionWindow : UInt32} (hlatest : latestLedgerSeq.toNat + 1 < 2 ^ 32)
    (events : List EventRow) :
    handler.trimEvents latestLedgerSeq retentionWindow events =
      (events.filter fun e =>
        decide (latestLedgerSeq.toNat < e.ledgerSequence.toNat + retentionWindow.toNat), .ok ()) := by
  have hsucc := uint32_toNat_add_one hlatest
  unfold EventHandler.trimEvents
  split
  · rename_i hskip
    rw [uint32_le_iff, hsucc] at hskip
    rw [List.filter_eq_self.mpr fun e _ => by simp only [decide_eq_true_eq]; omega]
  · rename_i hrun
    rw [uint32_le_iff, hsucc] at hrun
    have hcut : (latestLedgerSeq + 1 - retentionWindow).toNat =
        latestLedgerSeq.toNat + 1 - retentionWindow.toNat := by
      have hw := uint32_toNat_lt retentionWindow
      rw [uint32_toNat_sub, hsucc]
      omega
    simp only [hcache, hexec, Prod.mk.injEq, and_true]
    refine List.filter_congr fun e _ => Bool.eq_iff_iff.mpr ?_
    simp only [Bool.not_eq_true', decide_eq_false_iff_not, decide_eq_true_eq, uint32_lt_iff, hcut]
    omega

/-- After a trim below the top of the range, the rows up to the latest ledger belong to at most
`retentionWindow` ledgers. -/
theorem trimEvents_retained_ledgers {handler : EventHandler} {cache : StmtCache}
    (hcache : handler.stmtCache = some cache) (hexec : cache.exec 0 = none)
    {latestLedgerSeq retentionWindow : UInt32} (hlatest : latestLedgerSeq.toNat + 1 < 2 ^ 32)
    (events : List EventRow) :
    (((handler.trimEvents latestLedgerSeq retentionWindow events).1.map
      fun e => e.ledgerSequence.toNat).filter (· ≤ latestLedgerSeq.toNat)).toFinset.card ≤
      retentionWindow.toNat := by
  rw [trimEvents_eq_filter hcache hexec hlatest]
  calc _ ≤ (Finset.Icc (latestLedgerSeq.toNat + 1 - retentionWindow.toNat)
          latestLedgerSeq.toNat).card :=
        Finset.card_le_card fun s hs => by
          simp only [List.mem_toFinset, List.mem_filter, List.mem_map, decide_eq_true_eq] at hs
          obtain ⟨⟨e, ⟨-, hkept⟩, rfl⟩, hle⟩ := hs
          rw [Finset.mem_Icc]
          omega
    _ ≤ retentionWindow.toNat := by
      rw [Nat.card_Icc]
      omega

/-- Below the top of the `uint32` range, a trim that runs deletes exactly the rows of the ledgers
`s` with `s + retentionWindow ≤ latestLedgerSeq`, and leaves at most `retentionWindow` ledgers up
to the latest. -/
theorem trimEvents_keeps_window {handler : EventHandler} {cache : StmtCache}
    (hcache : handler.stmtCache = some cache) (hexec : cache.exec 0 = none)
    {latestLedgerSeq retentionWindow : UInt32} (hlatest : latestLedgerSeq.toNat + 1 < 2 ^ 32)
    (events : List EventRow) :
    (handler.trimEvents latestLedgerSeq retentionWindow events).1 =
        events.filter (fun e =>
          decide (latestLedgerSeq.toNat < e.ledgerSequence.toNat + retentionWindow.toNat)) ∧
      (((handler.trimEvents latestLedgerSeq retentionWindow events).1.map
        fun e => e.ledgerSequence.toNat).filter (· ≤ latestLedgerSeq.toNat)).toFinset.card ≤
        retentionWindow.toNat :=
  ⟨by rw [trimEvents_eq_filter hcache hexec hlatest],
    trimEvents_retained_ledgers hcache hexec hlatest events⟩

theorem trimEvents_keeps_window_at_twenty :
    ((⟨some ⟨fun _ => none⟩⟩ : EventHandler).trimEvents 20 10
        [⟨5, 1, none, 1⟩, ⟨15, 1, none, 1⟩]).1 =
        [⟨5, 1, none, 1⟩, ⟨15, 1, none, 1⟩].filter (fun e : EventRow =>
          decide ((20 : UInt32).toNat < e.ledgerSequence.toNat + (10 : UInt32).toNat)) ∧
      ((((⟨some ⟨fun _ => none⟩⟩ : EventHandler).trimEvents 20 10
        [⟨5, 1, none, 1⟩, ⟨15, 1, none, 1⟩]).1.map fun e => e.ledgerSequence.toNat).filter
          (· ≤ (20 : UInt32).toNat)).toFinset.card ≤ (10 : UInt32).toNat :=
  trimEvents_keeps_window rfl rfl (by decide) _

/-- At the top of the `uint32` range `latestLedgerSeq + 1` wraps to `0`, and the trim deletes
nothing. -/
theorem trimEvents_skips_at_last_ledger :
    (⟨some ⟨fun _ => none⟩⟩ : EventHandler).trimEvents 4294967295 1
        [⟨2, 1, none, 1⟩, ⟨3, 1, none, 1⟩] =
      ([⟨2, 1, none, 1⟩, ⟨3, 1, none, 1⟩], .ok ()) := by
  decide

/-! ### The event-table migration -/

/-- For a latest ledger one past the window, the migration starts at ledger `1`, below
`firstLedger`, and the trim deletes that ledger's rows. -/
theorem newEventTableMigration_starts_below_window :
    (newEventTableMigration 10 ⟨fun _ => none⟩ 11).applicableRange.firstLedgerSeq = 1 ∧
      ((⟨some ⟨fun _ => none⟩⟩ : EventHandler).trimEvents 11 10 [⟨1, 1, none, 1⟩]).1 = [] := by
  decide

end SorobanRpc
