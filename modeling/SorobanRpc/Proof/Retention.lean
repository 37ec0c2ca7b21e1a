import SorobanRpc.Proof.Runs
/-!
# Retention over the ingestion loop

`trimEvents` keeps or deletes the rows of a ledger all together, by a rule that depends only on its
arguments, and `InsertEvents` appends to any table what it appends to an empty one. So a trim and
the ingest of a ledger inside the trim's window may run in either order, whatever the database
answers to each of their statements (`ingest_trim_comm`).

The ingestion engine ingests ledgers in ascending order and trims after each one to the window of
the new latest ledger. When every statement succeeds and the reader reads every ledger through, the
event table after any such run holds exactly the rows of the ingested ledgers that lie inside the
window of the last one, in ingestion order (`ingestion_keeps_retention_window`). A trim removes
only rows that every later trim would remove too, so no run loses a row of the window, and none
keeps a row outside it.

The event-table migration rebuilds the table from the ledger store's records. Its range starts one
ledger below the window when the latest ledger lies past it; the trim after it deletes that ledger's
rows, so a migration followed by the trim at the latest ledger leaves the same rows as the ingestion
loop does (`migration_trim_keeps_window`).

The ledger store trims its records by its own statements. The query joins the event table with the
ledger records, so a scan on any reachable state skips the rows of a ledger whose record is gone,
and presents none of its events (`getEvents_skips_missing_ledger`).
-/

namespace SorobanRpc

/-- Whatever the database answers, a trim keeps every row `InsertEvents` writes for a ledger inside
the trim's window. -/
theorem trimEvents_keeps_insertEvents (handler trimmer : EventHandler) {lcm : LedgerCloseMeta}
    {latestLedgerSeq retentionWindow : UInt32}
    (hwindow : latestLedgerSeq.toNat < lcm.ledgerSequence.toNat + retentionWindow.toNat) :
    (trimmer.trimEvents latestLedgerSeq retentionWindow (handler.insertEvents lcm []).1).1 =
      (handler.insertEvents lcm []).1 := by
  obtain ⟨keep, hkeep⟩ := trimEvents_filter trimmer latestLedgerSeq retentionWindow
  rw [hkeep, List.filter_eq_self]
  intro e he
  have hseq : e.ledgerSequence = lcm.ledgerSequence := by
    rcases mem_insertEvents he with hnil | hsound
    · cases hnil
    · exact hsound.1
  have hkept := trimEvents_keeps_ledger trimmer (List.mem_singleton_self e) (hseq ▸ hwindow)
  rw [hkeep, List.mem_filter] at hkept
  exact hkept.2

/-- Whatever the database answers to the statements of either, a trim and the ingest of a ledger
inside its window commute. -/
theorem ingest_trim_comm (s : Store) (handler trimmer : EventHandler) (lcm : LedgerCloseMeta)
    {latestLedgerSeq retentionWindow : UInt32}
    (hwindow : latestLedgerSeq.toNat < lcm.ledgerSequence.toNat + retentionWindow.toNat) :
    (s.ingest handler lcm).trim trimmer latestLedgerSeq retentionWindow =
      (s.trim trimmer latestLedgerSeq retentionWindow).ingest handler lcm := by
  obtain ⟨keep, hkeep⟩ := trimEvents_filter trimmer latestLedgerSeq retentionWindow
  have hwritten := trimEvents_keeps_insertEvents handler trimmer hwindow
  rw [hkeep] at hwritten
  simp only [Store.ingest, Store.trim, Store.mk.injEq, true_and]
  rw [hkeep, hkeep, congrArg Prod.fst (insertEvents_append handler lcm s.events),
    congrArg Prod.fst (insertEvents_append handler lcm (s.events.filter _)), List.filter_append,
    hwritten]

theorem ingest_trim_comm_ledgerTwenty :
    (twoContractStore.ingest ⟨some ⟨fun _ => none⟩⟩ (twoContractLedgerAt 20)).trim
        ⟨some ⟨fun _ => none⟩⟩ 20 5 =
      (twoContractStore.trim ⟨some ⟨fun _ => none⟩⟩ 20 5).ingest ⟨some ⟨fun _ => none⟩⟩
        (twoContractLedgerAt 20) :=
  ingest_trim_comm _ _ _ _ (by decide)

/-! ### The ingestion loop -/

/-- One turn of the ingestion engine on a table that holds the rows of `rows` inside the window of
an earlier latest ledger. -/
theorem ingestAndTrim_events {cache : StmtCache} (hexec : ∀ n, cache.exec n = none)
    {retentionWindow : UInt32} {lcm : LedgerCloseMeta} (hlcm : LedgerDecodes lcm)
    (hlatest : lcm.ledgerSequence.toNat + 1 < 2 ^ 32) {s : Store} {rows : List EventRow}
    {latest : UInt32} (hle : latest.toNat ≤ lcm.ledgerSequence.toNat)
    (hs : s.events = rows.filter fun e =>
      decide (latest.toNat < e.ledgerSequence.toNat + retentionWindow.toNat)) :
    (s.ingestAndTrim ⟨some cache⟩ retentionWindow lcm).events =
      (rows ++ ledgerEventRows lcm).filter fun e =>
        decide (lcm.ledgerSequence.toNat < e.ledgerSequence.toNat + retentionWindow.toNat) := by
  rw [Store.ingestAndTrim, Store.trim_events, Store.ingest_events,
    insertEvents_of_decodes hexec hlcm, trimEvents_eq_filter rfl (hexec 0) hlatest, hs,
    List.filter_append, List.filter_append, List.filter_filter]
  refine congrArg (· ++ _) (List.filter_congr fun e _ => ?_)
  by_cases hin : lcm.ledgerSequence.toNat < e.ledgerSequence.toNat + retentionWindow.toNat
  · simp only [hin, decide_True, Bool.true_and, decide_eq_true_eq]
    omega
  · simp only [hin, decide_False, Bool.false_and]

/-- When every statement succeeds and the reader reads every ledger through, the ingestion engine
run from the empty tables over ledgers in ascending order leaves in the event table exactly the
rows of those ledgers inside the retention window of the last one, in ingestion order. -/
theorem ingestion_keeps_retention_window {cache : StmtCache} (hexec : ∀ n, cache.exec n = none)
    (retentionWindow : UInt32) {lcms : List LedgerCloseMeta} {latest : LedgerCloseMeta}
    (hdecodes : ∀ lcm ∈ lcms ++ [latest], LedgerDecodes lcm)
    (hsorted : (lcms ++ [latest]).Pairwise fun a b =>
      a.ledgerSequence.toNat ≤ b.ledgerSequence.toNat)
    (hlatest : latest.ledgerSequence.toNat + 1 < 2 ^ 32) :
    ((lcms ++ [latest]).foldl (fun s lcm => s.ingestAndTrim ⟨some cache⟩ retentionWindow lcm)
        Store.empty).events =
      ((lcms ++ [latest]).flatMap ledgerEventRows).filter fun e =>
        decide (latest.ledgerSequence.toNat < e.ledgerSequence.toNat + retentionWindow.toNat) := by
  induction lcms using List.reverseRecOn generalizing latest with
  | nil =>
    rw [List.nil_append, List.foldl_cons, List.foldl_nil, List.flatMap_singleton,
      ← List.nil_append (ledgerEventRows latest)]
    exact ingestAndTrim_events hexec (hdecodes latest (List.mem_singleton_self _)) hlatest
      (show (0 : UInt32).toNat ≤ _ from Nat.zero_le _) (show Store.empty.events = [].filter fun e =>
        decide ((0 : UInt32).toNat < e.ledgerSequence.toNat + retentionWindow.toNat) from rfl)
  | append_singleton lcms prev ih =>
    have hprev : prev.ledgerSequence.toNat ≤ latest.ledgerSequence.toNat :=
      (List.pairwise_append.mp hsorted).2.2 prev (List.mem_append_right _ (List.mem_singleton_self _))
        latest (List.mem_singleton_self _)
    have hbefore := ih (fun l hl => hdecodes l (List.mem_append_left _ hl))
      (hsorted.sublist (List.sublist_append_left _ _)) (by omega)
    rw [List.foldl_append, List.foldl_cons, List.foldl_nil, List.flatMap_append,
      List.flatMap_singleton]
    exact ingestAndTrim_events hexec (hdecodes latest (List.mem_append_right _
      (List.mem_singleton_self _))) hlatest hprev hbefore

def laterLedger : LedgerCloseMeta := { twoEventLedger with ledgerSequence := 20 }

theorem ingestion_keeps_retention_window_laterLedger :
    (([twoEventLedger] ++ [laterLedger]).foldl
        (fun s lcm => s.ingestAndTrim ⟨some ⟨fun _ => none⟩⟩ 5 lcm) Store.empty).events =
      (([twoEventLedger] ++ [laterLedger]).flatMap ledgerEventRows).filter fun e =>
        decide (laterLedger.ledgerSequence.toNat < e.ledgerSequence.toNat + (5 : UInt32).toNat) :=
  ingestion_keeps_retention_window (fun _ => rfl) 5
    (by decide) (by decide) (by decide)

/-! ### The migration -/

/-- A filter on the ledger sequence keeps all the rows written for a ledger or none of them. -/
theorem filter_ledgerEventRows (lcm : LedgerCloseMeta) (keep : UInt32 → Bool) :
    (ledgerEventRows lcm).filter (fun e => keep e.ledgerSequence) =
      if keep lcm.ledgerSequence then ledgerEventRows lcm else [] := by
  have hseq : ∀ e ∈ ledgerEventRows lcm, e.ledgerSequence = lcm.ledgerSequence := fun e he => by
    obtain ⟨p, -, hp⟩ := List.mem_flatMap.mp he
    exact ledgerSequence_of_mem_txEventRows hp
  split
  · exact List.filter_eq_self.mpr fun e he => by rwa [hseq e he]
  · exact List.filter_eq_nil_iff.mpr fun e he => by rwa [hseq e he]

theorem filter_flatMap_ledgerEventRows (lcms : List LedgerCloseMeta) (keep : UInt32 → Bool) :
    (lcms.flatMap ledgerEventRows).filter (fun e => keep e.ledgerSequence) =
      (lcms.filter fun lcm => keep lcm.ledgerSequence).flatMap ledgerEventRows := by
  induction lcms with
  | nil => rfl
  | cons lcm lcms ih =>
    by_cases hkeep : keep lcm.ledgerSequence = true <;>
      simp [List.filter_cons, hkeep, List.filter_append, filter_ledgerEventRows, ih]

/-- The migration's range holds every ledger from `firstLedger` up to the latest that the trim at
the latest ledger keeps. -/
theorem newEventTableMigration_contains (retentionWindow : UInt32) (stmtCache : StmtCache)
    {latestLedger seq : UInt32} (hfirst : firstLedger.toNat ≤ seq.toNat)
    (hlast : seq.toNat ≤ latestLedger.toNat)
    (hwindow : latestLedger.toNat < seq.toNat + retentionWindow.toNat) :
    (newEventTableMigration retentionWindow stmtCache latestLedger).applicableRange.contains seq := by
  simp only [newEventTableMigration, EventTableMigration.applicableRange, LedgerSeqRange.contains,
    Bool.and_eq_true, decide_eq_true_eq, uint32_le_iff]
  refine ⟨?_, hlast⟩
  split
  · rename_i hpast
    have hpast : retentionWindow.toNat < latestLedger.toNat := hpast
    rw [UInt32.toNat_sub_of_le _ _ (uint32_le_iff.mpr (by omega))]
    omega
  · exact hfirst

/-- When every statement succeeds and the reader reads every record through, the event-table
migration over records from `firstLedger` up to the latest ledger, followed by the trim at the
latest ledger, leaves exactly the rows of the records inside the retention window, in order. -/
theorem migration_trim_keeps_window {cache : StmtCache} (hexec : ∀ n, cache.exec n = none)
    (retentionWindow latestLedger : UInt32) {lcms : List LedgerCloseMeta}
    (hdecodes : ∀ lcm ∈ lcms, LedgerDecodes lcm)
    (hrecords : ∀ lcm ∈ lcms, firstLedger.toNat ≤ lcm.ledgerSequence.toNat ∧
      lcm.ledgerSequence.toNat ≤ latestLedger.toNat)
    (hlatest : latestLedger.toNat + 1 < 2 ^ 32) :
    ((⟨some cache⟩ : EventHandler).trimEvents latestLedger retentionWindow
        ((newEventTableMigration retentionWindow cache latestLedger).run lcms []).1).1 =
      (lcms.flatMap ledgerEventRows).filter fun e =>
        decide (latestLedger.toNat < e.ledgerSequence.toNat + retentionWindow.toNat) := by
  rw [EventTableMigration.run_of_decodes rfl hexec hdecodes, trimEvents_eq_filter rfl (hexec 0) hlatest,
    List.nil_append, filter_flatMap_ledgerEventRows _ fun seq =>
      decide (latestLedger.toNat < seq.toNat + retentionWindow.toNat),
    filter_flatMap_ledgerEventRows _ fun seq =>
      decide (latestLedger.toNat < seq.toNat + retentionWindow.toNat), List.filter_filter]
  refine congrArg (List.flatMap · ledgerEventRows) (List.filter_congr fun lcm hlcm => ?_)
  by_cases hin : latestLedger.toNat < lcm.ledgerSequence.toNat + retentionWindow.toNat
  · have hrange := hrecords lcm hlcm
    simp only [hin, decide_True, Bool.true_and,
      newEventTableMigration_contains retentionWindow cache hrange.1 hrange.2 hin]
  · simp only [hin, decide_False, Bool.false_and]

def fifteenLedger : LedgerCloseMeta := { twoEventLedger with ledgerSequence := 15 }

theorem migration_trim_keeps_window_fifteenLedger :
    ((⟨some ⟨fun _ => none⟩⟩ : EventHandler).trimEvents 20 5
        ((newEventTableMigration 5 ⟨fun _ => none⟩ 20).run
          [twoEventLedger, fifteenLedger, laterLedger] []).1).1 =
      ([twoEventLedger, fifteenLedger, laterLedger].flatMap ledgerEventRows).filter fun e =>
        decide ((20 : UInt32).toNat < e.ledgerSequence.toNat + (5 : UInt32).toNat) :=
  migration_trim_keeps_window (fun _ => rfl) 5 20
    (by decide) (by decide) (by decide)

/-! ### Ledger records deleted under the rows -/

/-- On every reachable state, whatever the range, the filter, the visitor and the database's answer,
a scan presents no event of a ledger whose record is not in the ledger store, even where the
ledger's rows remain in the event table. -/
theorem getEvents_skips_missing_ledger {ingested : List LedgerCloseMeta} {s : Store}
    (hs : Reachable ingested s) {seq : UInt32} (hmissing : s.ledgers seq = none)
    {cursorRange : CursorRange} {contractIDs : List (List UInt8)} {f : ScanFunction}
    {selected : Except String (List SelectedRow)}
    (hsel : s.Answers cursorRange contractIDs selected) :
    seq ∉ (getEvents cursorRange contractIDs f selected).1.map fun call => call.cursor.ledger := by
  intro hseq
  obtain ⟨call, h, hcall⟩ := List.mem_map.mp hseq
  obtain ⟨row, hrow, hledger, -⟩ := mem_getEvents_selected hsel h
  obtain ⟨e, -, -, hstored, -⟩ := mem_selectEvents.mp hrow
  obtain ⟨-, hrecord⟩ := hs.storeInv.ledgers _ _ hstored
  rw [← hcall, hledger, hrecord, hstored] at hmissing
  cases hmissing

/-- The tables after ingesting `twoContractLedger` and its transactions again as ledger 3, once the
ledger store has deleted the record of ledger 2. -/
def recordDeletedStore : Store :=
  (twoContractStore.ingest ⟨some ⟨fun _ => none⟩⟩
    { twoContractLedger with ledgerSequence := 3 }).deleteLedger 2

theorem getEvents_skips_missing_ledger_recordDeletedStore :
    (2 : UInt32) ∉ (getEvents ⟨⟨0, 0, 0⟩, ⟨4, 0, 0⟩⟩ [] (fun _ _ => true)
      (.ok (recordDeletedStore.selectEvents ⟨⟨0, 0, 0⟩, ⟨4, 0, 0⟩⟩ []))).1.map
        fun call => call.cursor.ledger :=
  getEvents_skips_missing_ledger (show Reachable _ recordDeletedStore from
    .deleteLedger 2 (.ingest _ _ reachable_twoContractStore (by decide)))
    (show recordDeletedStore.ledgers 2 = none from rfl) ⟨.refl _, by decide⟩

end SorobanRpc
