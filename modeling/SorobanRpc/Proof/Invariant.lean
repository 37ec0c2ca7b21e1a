import SorobanRpc.Db.Ingest
import SorobanRpc.Proof.Insert
import SorobanRpc.Proof.Scan
import SorobanRpc.Proof.Trim
/-!
# The event table points at ingested events

On every run, each row of the event table describes a diagnostic event of a successful
transaction of the ledger ingested under the row's sequence, at the row's application order. The
row was written by `InsertEvents` after the transaction reader found that transaction, and the
reader finds it again for `GetEvents`: the record is a value, `InsertEvents` numbers transactions
from `1` where `GetEvents` seeks to `txIndex - 1`, and failed transactions are skipped on the way
in. Trims delete rows and the ledger store deletes records, so neither breaks it.

`StoreInv` is that invariant, with the two facts about the ledger table it needs: no sequence is
ingested twice, and the table holds only records ingested under their own sequence.
-/

namespace SorobanRpc

/-- The events row `e` describes a diagnostic event of the ledger `lcm` that `InsertEvents` read:
the reader opened on `lcm` and knew the transaction at the row's 1-based application order, which
is successful and has a diagnostic event the row describes. -/
def RowSound (lcm : LedgerCloseMeta) (e : EventRow) : Prop :=
  e.ledgerSequence = lcm.ledgerSequence ∧ 1 ≤ e.applicationOrder.toNat ∧
    ∃ hashes meta evs, lcm.txSet.mapM TransactionEnvelope.hash = .ok hashes ∧
      lcm.txProcessing.toList[e.applicationOrder.toNat - 1]? = some meta ∧
      meta.result.transactionHash ∈ hashes ∧ meta.result.successful = true ∧
      meta.txApplyProcessing.diagnosticEvents = .ok evs ∧
      ∃ ev ∈ evs.toList, eventRow e.ledgerSequence e.applicationOrder ev = e

theorem rowSound_of_mem_rows {lcm : LedgerCloseMeta} {k : Nat} {e : EventRow}
    (hkeys : ∀ p ∈ lcm.txProcessing.toList.enum.take k, ∃ hashes,
      lcm.txSet.mapM TransactionEnvelope.hash = .ok hashes ∧ p.2.result.transactionHash ∈ hashes)
    (he : e ∈ (lcm.txProcessing.toList.enum.take k).flatMap (txEventRows lcm.ledgerSequence)) :
    RowSound lcm e := by
  obtain ⟨⟨i, meta⟩, hp, hrow⟩ := List.mem_flatMap.mp he
  obtain ⟨hashes, hopen, hknown⟩ := hkeys _ hp
  obtain ⟨hi, hat⟩ := List.mem_enum (List.mem_of_mem_take hp)
  obtain ⟨hsucc, evs, hevs, ev, hev, rfl⟩ := mem_txEventRows.mp hrow
  have hord : (UInt32.ofNat (i + 1)).toNat = i + 1 := by
    have := lcm.txProcessing.length_lt
    rw [uint32_toNat_ofNat, Nat.mod_eq_of_lt (by omega)]
  refine ⟨rfl, by simp only [eventRow, hord]; omega, hashes, meta, evs, hopen, ?_, hknown, hsucc,
    hevs, ev, hev, rfl⟩
  simp only [eventRow, hord, Nat.add_sub_cancel, List.getElem?_eq_some_iff]
  exact ⟨hi, hat.symm⟩

/-- A row `InsertEvents` left in the table was there before, or is sound for the ledger. -/
theorem mem_insertEvents {handler : EventHandler} {lcm : LedgerCloseMeta}
    {events : List EventRow} {e : EventRow} (he : e ∈ (handler.insertEvents lcm events).1) :
    e ∈ events ∨ RowSound lcm e := by
  obtain ⟨k, hrows, -, hkeys⟩ := insertEvents_rows handler lcm events
  rw [hrows, List.mem_append] at he
  exact he.imp id (rowSound_of_mem_rows hkeys)

/-- Every events row names a diagnostic event of a successful transaction of the ledger ingested
under the row's sequence: the transaction at its 1-based application order, with an event of the
row's contract id and type. -/
def EventsTableSound (ingested : List LedgerCloseMeta) (s : Store) : Prop :=
  ∀ e ∈ s.events, ∃ lcm, ingestedLedger ingested e.ledgerSequence = some lcm ∧
    1 ≤ e.applicationOrder.toNat ∧ e.applicationOrder.toNat ≤ lcm.countTransactions ∧
    ∃ meta, lcm.txProcessing.toList[e.applicationOrder.toNat - 1]? = some meta ∧
      meta.result.successful = true ∧
      ∃ evs, meta.txApplyProcessing.diagnosticEvents = .ok evs ∧
        ∃ ev ∈ evs.toList, ev.event.contractId.map Hash.bytes = e.contractId ∧
          ev.event.type.toInt = e.eventType

/-- Whatever the database answers, `GetEvents` fails only with the database's error, and presents
to its visitor only the event its cursor names: the `cursor.event`-th diagnostic event of the
successful `cursor.tx`-th transaction of the ledger ingested under `cursor.ledger`, with that
ledger's close time and that transaction's hash. -/
def GetEventsSound (ingested : List LedgerCloseMeta) (s : Store) : Prop :=
  ∀ cursorRange contractIDs f selected, s.Answers cursorRange contractIDs selected →
    (∀ err, (getEvents cursorRange contractIDs f selected).2 = .error err →
      ∃ msg, selected = .error msg ∧ err = .dbRead cursorRange.start contractIDs msg) ∧
    ∀ call ∈ (getEvents cursorRange contractIDs f selected).1,
      ∃ lcm, ingestedLedger ingested call.cursor.ledger = some lcm ∧
        call.ledgerCloseTimestamp = lcm.ledgerCloseTime ∧ 1 ≤ call.cursor.tx.toNat ∧
        ∃ meta, lcm.txProcessing.toList[call.cursor.tx.toNat - 1]? = some meta ∧
          meta.result.successful = true ∧ call.txHash = meta.result.transactionHash ∧
          ∃ evs, meta.txApplyProcessing.diagnosticEvents = .ok evs ∧
            evs.toList[call.cursor.event.toNat]? = some call.event

/-- The invariant of the event store's runs. -/
structure StoreInv (ingested : List LedgerCloseMeta) (s : Store) : Prop where
  nodup : (ingested.map LedgerCloseMeta.ledgerSequence).Nodup
  ledgers : ∀ seq lcm, s.ledgers seq = some lcm → lcm ∈ ingested ∧ lcm.ledgerSequence = seq
  events : ∀ e ∈ s.events, ∃ lcm ∈ ingested, RowSound lcm e

namespace StoreInv

variable {ingested : List LedgerCloseMeta} {s : Store}

theorem empty : StoreInv [] Store.empty :=
  ⟨List.nodup_nil, by simp [Store.empty], by simp [Store.empty]⟩

theorem ingest (hinv : StoreInv ingested s) {lcm : LedgerCloseMeta}
    (hnew : lcm.ledgerSequence ∉ ingested.map LedgerCloseMeta.ledgerSequence)
    (handler : EventHandler) : StoreInv (lcm :: ingested) (s.ingest handler lcm) where
  nodup := List.nodup_cons.mpr ⟨hnew, hinv.nodup⟩
  ledgers seq l h := by
    simp only [Store.ingest] at h
    split at h
    · rename_i hseq
      cases h
      exact ⟨List.mem_cons_self _ _, hseq.symm⟩
    · obtain ⟨hmem, hseq⟩ := hinv.ledgers seq l h
      exact ⟨List.mem_cons_of_mem _ hmem, hseq⟩
  events e he := by
    rcases mem_insertEvents he with hold | hsound
    · obtain ⟨l, hl, hrow⟩ := hinv.events e hold
      exact ⟨l, List.mem_cons_of_mem _ hl, hrow⟩
    · exact ⟨lcm, List.mem_cons_self _ _, hsound⟩

theorem trim (hinv : StoreInv ingested s) (handler : EventHandler)
    (latestLedgerSeq retentionWindow : UInt32) :
    StoreInv ingested (s.trim handler latestLedgerSeq retentionWindow) :=
  ⟨hinv.nodup, hinv.ledgers, fun e he => hinv.events e (trimEvents_subset he)⟩

theorem deleteLedger (hinv : StoreInv ingested s) (seq : UInt32) :
    StoreInv ingested (s.deleteLedger seq) where
  nodup := hinv.nodup
  ledgers seq' l h := by
    simp only [Store.deleteLedger] at h
    split at h
    · cases h
    · exact hinv.ledgers seq' l h
  events := hinv.events

theorem ledger_eq (hinv : StoreInv ingested s) {l l' : LedgerCloseMeta} (hl : l ∈ ingested)
    (hl' : l' ∈ ingested) (hseq : l.ledgerSequence = l'.ledgerSequence) : l = l' :=
  List.inj_on_of_nodup_map hinv.nodup hl hl' hseq

theorem ingestedLedger_eq (hinv : StoreInv ingested s) {l : LedgerCloseMeta} (hl : l ∈ ingested) :
    ingestedLedger ingested l.ledgerSequence = some l := by
  unfold ingestedLedger
  have hsome : (ingested.find? fun lcm => decide (lcm.ledgerSequence = l.ledgerSequence)).isSome :=
    List.find?_isSome.mpr ⟨l, hl, decide_eq_true rfl⟩
  obtain ⟨l', hfind⟩ := Option.isSome_iff_exists.mp hsome
  rw [hfind, hinv.ledger_eq (List.mem_of_find?_eq_some hfind) hl
    (by simpa using List.find?_some hfind)]

/-- Every row the query returns comes from a sound events row and the record ingested under its
sequence. -/
theorem selected_event (hinv : StoreInv ingested s) {cursorRange : CursorRange}
    {contractIDs : List (List UInt8)} {row : SelectedRow}
    (hrow : row ∈ s.selectEvents cursorRange contractIDs) :
    ∃ e ∈ s.events, rowMatches cursorRange contractIDs e = true ∧ row.lcm ∈ ingested ∧
      row.lcm.ledgerSequence = e.ledgerSequence ∧ row.ledgerSequence = e.ledgerSequence ∧
      row.txIndex = e.applicationOrder ∧ RowSound row.lcm e := by
  obtain ⟨e, he, hmatch, hledger, hrowseq, htx⟩ := mem_selectEvents.mp hrow
  obtain ⟨hmem, hseq⟩ := hinv.ledgers _ _ hledger
  obtain ⟨l, hl, hsound⟩ := hinv.events e he
  obtain rfl : l = row.lcm := hinv.ledger_eq hl hmem (hsound.1.symm.trans hseq.symm)
  exact ⟨e, he, hmatch, hmem, hseq, hrowseq, htx, hsound⟩

/-- Every row the query returns is read from the record ingested under its sequence, at the
successful transaction its application order names. -/
theorem selected (hinv : StoreInv ingested s) {cursorRange : CursorRange}
    {contractIDs : List (List UInt8)} {row : SelectedRow}
    (hrow : row ∈ s.selectEvents cursorRange contractIDs) :
    row.lcm ∈ ingested ∧ 1 ≤ row.txIndex.toNat ∧ ∃ meta evs,
      row.lcm.txProcessing.toList[row.txIndex.toNat - 1]? = some meta ∧
      meta.result.successful = true ∧ meta.txApplyProcessing.diagnosticEvents = .ok evs ∧
      readRow row = .ok (⟨row.txIndex, meta.result, meta.txApplyProcessing⟩, evs) := by
  obtain ⟨e, -, -, hmem, -, -, htx, -, hord, hashes, meta, evs, hopen, hmeta, hknown, hsucc, hevs,
    -⟩ := hinv.selected_event hrow
  rw [← htx] at hord hmeta
  exact ⟨hmem, hord, meta, evs, hmeta, hsucc, hevs, readRow_eq_ok hopen hord hmeta hknown hevs⟩

theorem eventsTableSound (hinv : StoreInv ingested s) : EventsTableSound ingested s := by
  intro e he
  obtain ⟨lcm, hl, hseq, hord, -, meta, evs, -, hmeta, -, hsucc, hevs, ev, hev, hrow⟩ :=
    hinv.events e he
  have hlt := (List.getElem?_eq_some_iff.mp hmeta).1
  refine ⟨lcm, hseq ▸ hinv.ingestedLedger_eq hl, hord, by
    rw [LedgerCloseMeta.countTransactions]; omega, meta, hmeta, hsucc, evs, hevs, ev, hev, ?_⟩
  rw [← hrow]
  exact ⟨rfl, rfl⟩

/-- On a reachable state a scan fails only when the database does. -/
theorem getEvents_error (hinv : StoreInv ingested s) {cursorRange : CursorRange}
    {contractIDs : List (List UInt8)} {f : ScanFunction}
    {selected : Except String (List SelectedRow)} (hsel : s.Answers cursorRange contractIDs selected)
    {err : GetEventsError} (h : (getEvents cursorRange contractIDs f selected).2 = .error err) :
    ∃ msg, selected = .error msg ∧ err = .dbRead cursorRange.start contractIDs msg := by
  rcases SorobanRpc.getEvents_error h with hdb | ⟨rows, rfl, row, hrow, hread⟩
  · exact hdb
  · obtain ⟨-, -, meta, evs, -, -, -, hok⟩ := hinv.selected ((hsel.1.mem_iff).mp hrow)
    rw [hok] at hread
    cases hread

/-- On a reachable state every call of a scan presents the diagnostic event its cursor names, in
the ingested ledger its cursor names, with that ledger's close time and that transaction's hash;
and the transaction is successful. -/
theorem mem_getEvents (hinv : StoreInv ingested s) {cursorRange : CursorRange}
    {contractIDs : List (List UInt8)} {f : ScanFunction}
    {selected : Except String (List SelectedRow)} (hsel : s.Answers cursorRange contractIDs selected)
    {call : ScanCall} (h : call ∈ (getEvents cursorRange contractIDs f selected).1) :
    ∃ lcm, ingestedLedger ingested call.cursor.ledger = some lcm ∧
      call.ledgerCloseTimestamp = lcm.ledgerCloseTime ∧ 1 ≤ call.cursor.tx.toNat ∧
      ∃ meta, lcm.txProcessing.toList[call.cursor.tx.toNat - 1]? = some meta ∧
        meta.result.successful = true ∧ call.txHash = meta.result.transactionHash ∧
        ∃ evs, meta.txApplyProcessing.diagnosticEvents = .ok evs ∧
          evs.toList[call.cursor.event.toNat]? = some call.event := by
  obtain ⟨rows, rfl, row, hrow, ledgerTx, diagEvents, hread, j, event, hj, rfl⟩ :=
    SorobanRpc.mem_getEvents h
  obtain ⟨hmem, hord, meta, evs, hmeta, hsucc, hevs, hok⟩ :=
    hinv.selected ((hsel.1.mem_iff).mp hrow)
  rw [hok, Except.ok.injEq, Prod.mk.injEq] at hread
  obtain ⟨rfl, rfl⟩ := hread
  have hjlt : j < 4294967296 := lt_trans (List.getElem?_eq_some_iff.mp hj).1 evs.length_lt
  refine ⟨row.lcm, hinv.ingestedLedger_eq hmem, rfl, hord, meta, hmeta, hsucc, rfl, evs, hevs, ?_⟩
  simpa [rowCall, Nat.mod_eq_of_lt hjlt] using hj

end StoreInv

theorem Reachable.storeInv {ingested : List LedgerCloseMeta} {s : Store}
    (h : Reachable ingested s) : StoreInv ingested s := by
  induction h with
  | empty => exact StoreInv.empty
  | ingest handler lcm _ hnew ih => exact ih.ingest hnew handler
  | trim handler latestLedgerSeq retentionWindow _ ih => exact ih.trim handler _ _
  | deleteLedger seq _ ih => exact ih.deleteLedger seq

theorem StoreInv.getEventsSound {ingested : List LedgerCloseMeta} {s : Store}
    (hinv : StoreInv ingested s) : GetEventsSound ingested s :=
  fun _ _ _ _ hsel => ⟨fun _ h => hinv.getEvents_error hsel h, fun _ h => hinv.mem_getEvents hsel h⟩

/-- On every reachable state the event table names only diagnostic events of ingested successful
transactions, and `GetEvents` presents exactly those events under their own cursors. -/
theorem reachable_events_sound {ingested : List LedgerCloseMeta} {s : Store}
    (hs : Reachable ingested s) : EventsTableSound ingested s ∧ GetEventsSound ingested s :=
  ⟨hs.storeInv.eventsTableSound, hs.storeInv.getEventsSound⟩

theorem reachable_events_sound_twoEventLedger :
    EventsTableSound [twoEventLedger] (Store.empty.ingest ⟨some ⟨fun _ => none⟩⟩ twoEventLedger) ∧
      GetEventsSound [twoEventLedger] (Store.empty.ingest ⟨some ⟨fun _ => none⟩⟩ twoEventLedger) :=
  reachable_events_sound (.ingest _ _ .empty (by simp))

end SorobanRpc
