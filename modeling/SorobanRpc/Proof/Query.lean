import SorobanRpc.Proof.Invariant
/-!
# What a range scan presents

The query selects index rows by three comparisons, `e.ledger_sequence >= Start.Ledger`,
`e.application_order >= Start.Tx` and `e.ledger_sequence < End.Ledger`, orders them by ledger
alone, and expands every row to all diagnostic events of its transaction. On a reachable state a
scan therefore presents cursors below `End`, in non-decreasing ledger order, from transactions
that have an event of the filter. That is what the first half of this module proves.

It is less than a scan of the half-open range in strictly increasing cursor order, and the second
half shows each gap on a state reached by ingesting one ledger.
-/

namespace SorobanRpc

variable {ingested : List LedgerCloseMeta} {s : Store} {cursorRange : CursorRange}
  {contractIDs : List (List UInt8)} {f : ScanFunction} {selected : Except String (List SelectedRow)}

/-- Every call of a scan comes from a row of the query, at that row's ledger and transaction. -/
theorem mem_getEvents_selected (hsel : s.Answers cursorRange contractIDs selected) {call : ScanCall}
    (h : call ∈ (getEvents cursorRange contractIDs f selected).1) :
    ∃ row ∈ s.selectEvents cursorRange contractIDs,
      call.cursor.ledger = row.lcm.ledgerSequence ∧ call.cursor.tx = row.txIndex := by
  obtain ⟨rows, rfl, row, hrow, -, -, -, j, e, -, rfl⟩ := mem_getEvents h
  exact ⟨row, hsel.1.mem_iff.mp hrow, rfl, rfl⟩

/-- On a reachable state every cursor a scan presents lies below `End`, and at or after `Start`
unless it is an earlier event of `Start`'s own transaction. -/
theorem getEvents_cursor_bounds (hs : Reachable ingested s)
    (hsel : s.Answers cursorRange contractIDs selected) {call : ScanCall}
    (h : call ∈ (getEvents cursorRange contractIDs f selected).1) :
    call.cursor < cursorRange.end ∧ (cursorRange.start ≤ call.cursor ∨
      call.cursor.ledger = cursorRange.start.ledger ∧ call.cursor.tx = cursorRange.start.tx ∧
        call.cursor.event < cursorRange.start.event) := by
  obtain ⟨row, hrow, hledger, htx⟩ := mem_getEvents_selected hsel h
  obtain ⟨e, -, hmatch, -, hseq, -, htx', -⟩ := hs.storeInv.selected_event hrow
  simp only [rowMatches, Bool.and_eq_true, decide_eq_true_eq, uint32_le_iff, uint32_lt_iff]
    at hmatch
  rw [Cursor.lt_iff, Cursor.le_iff, uint32_eq_iff, uint32_eq_iff, uint32_lt_iff, hledger, htx, hseq,
    htx']
  omega

/-! ### Where the scan falls short

One successful transaction in ledger `2` with an event of contract `A` and one of contract `B`,
ingested by a handler whose statements all succeed, and the query's answer in the table's order.
-/

def hashA : Hash := ⟨List.replicate 32 10, rfl⟩

def hashB : Hash := ⟨List.replicate 32 11, rfl⟩

def eventA : DiagnosticEvent := ⟨⟨some hashA, .contract, [1]⟩⟩

def eventB : DiagnosticEvent := ⟨⟨some hashB, .contract, [2]⟩⟩

/-- Ledger `2`, whose one transaction emits `eventA` and then `eventB`. -/
def twoContractLedger : LedgerCloseMeta where
  ledgerSequence := 2
  ledgerCloseTime := 150
  txSet := [⟨.ok ⟨List.replicate 32 1, rfl⟩⟩]
  txProcessing :=
    ⟨[⟨⟨⟨List.replicate 32 1, rfl⟩, true⟩, ⟨.ok ⟨[eventA, eventB], by decide⟩⟩⟩], by decide⟩

def twoContractStore : Store := Store.empty.ingest ⟨some ⟨fun _ => none⟩⟩ twoContractLedger

theorem reachable_twoContractStore : Reachable [twoContractLedger] twoContractStore :=
  .ingest _ _ .empty (by simp)

def wholeRange : CursorRange := ⟨⟨0, 0, 0⟩, ⟨3, 0, 0⟩⟩

def startInTx : CursorRange := ⟨⟨2, 1, 1⟩, ⟨3, 0, 0⟩⟩

def callA : ScanCall := ⟨eventA, ⟨2, 1, 0⟩, 150, ⟨List.replicate 32 1, rfl⟩⟩

theorem getEvents_cursor_bounds_callA :
    callA.cursor < startInTx.end ∧ (startInTx.start ≤ callA.cursor ∨
      callA.cursor.ledger = startInTx.start.ledger ∧ callA.cursor.tx = startInTx.start.tx ∧
        callA.cursor.event < startInTx.start.event) :=
  getEvents_cursor_bounds reachable_twoContractStore
    (show twoContractStore.Answers startInTx [] (.ok (twoContractStore.selectEvents startInTx []))
      from ⟨.refl _, by decide⟩)
    (by decide : callA ∈ (getEvents startInTx [] (fun _ _ => true)
      (.ok (twoContractStore.selectEvents startInTx []))).1)

/-- With `Start = (2, 1, 1)` the scan presents the event at `(2, 1, 0)`, before `Start`. -/
theorem getEvents_presents_event_before_start :
    Reachable [twoContractLedger] twoContractStore ∧ twoContractStore.Answers startInTx []
        (.ok (twoContractStore.selectEvents startInTx [])) ∧
      (getEvents startInTx [] (fun _ _ => true)
        (.ok (twoContractStore.selectEvents startInTx []))).1.map ScanCall.cursor =
        [⟨2, 1, 0⟩, ⟨2, 1, 1⟩, ⟨2, 1, 0⟩, ⟨2, 1, 1⟩] ∧
      ¬(⟨2, 1, 1⟩ : Cursor) ≤ ⟨2, 1, 0⟩ :=
  ⟨reachable_twoContractStore, ⟨.refl _, by decide⟩, by decide, by decide⟩

/-- `eventA` is at `(2, 1, 0)`, inside `[(1, 2, 0), (3, 0, 0))`, but its row fails
`e.application_order >= Start.Tx`, and the scan presents nothing. -/
theorem getEvents_misses_event_in_range :
    Reachable [twoContractLedger] twoContractStore ∧
      (⟨⟨1, 2, 0⟩, ⟨3, 0, 0⟩⟩ : CursorRange).Contains ⟨2, 1, 0⟩ ∧
      twoContractStore.ledgers 2 = some twoContractLedger ∧
      eventRow 2 1 eventA ∈ twoContractStore.events ∧
      twoContractStore.Answers ⟨⟨1, 2, 0⟩, ⟨3, 0, 0⟩⟩ []
        (.ok (twoContractStore.selectEvents ⟨⟨1, 2, 0⟩, ⟨3, 0, 0⟩⟩ [])) ∧
      (getEvents ⟨⟨1, 2, 0⟩, ⟨3, 0, 0⟩⟩ [] (fun _ _ => true)
        (.ok (twoContractStore.selectEvents ⟨⟨1, 2, 0⟩, ⟨3, 0, 0⟩⟩ []))).1 = [] :=
  ⟨reachable_twoContractStore, by decide, rfl, by decide, ⟨.refl _, by decide⟩, by decide⟩

/-- Splitting `[(0, 0, 0), (3, 0, 0))` at `(2, 2, 0)`: the whole range presents four calls, and
neither half presents any. -/
theorem getEvents_split_loses_events :
    Reachable [twoContractLedger] twoContractStore ∧ (⟨0, 0, 0⟩ : Cursor) ≤ ⟨2, 2, 0⟩ ∧ (⟨2, 2, 0⟩ : Cursor) ≤ ⟨3, 0, 0⟩ ∧
      (getEvents wholeRange [] (fun _ _ => true)
        (.ok (twoContractStore.selectEvents wholeRange []))).1.length = 4 ∧
      (getEvents ⟨⟨0, 0, 0⟩, ⟨2, 2, 0⟩⟩ [] (fun _ _ => true)
        (.ok (twoContractStore.selectEvents ⟨⟨0, 0, 0⟩, ⟨2, 2, 0⟩⟩ []))).1 = [] ∧
      (getEvents ⟨⟨2, 2, 0⟩, ⟨3, 0, 0⟩⟩ [] (fun _ _ => true)
        (.ok (twoContractStore.selectEvents ⟨⟨2, 2, 0⟩, ⟨3, 0, 0⟩⟩ []))).1 = [] :=
  ⟨reachable_twoContractStore, by decide, by decide, by decide, by decide, by decide⟩

theorem ledger_of_mem_rowCalls {row : SelectedRow} {call : ScanCall} (h : call ∈ rowCalls row) :
    call.cursor.ledger = row.lcm.ledgerSequence := by
  unfold rowCalls at h
  split at h
  · obtain ⟨_, -, rfl⟩ := List.mem_map.mp h
    rfl
  · cases h

/-- Whatever the visitor answers, a scan on a reachable state presents its cursors in
non-decreasing ledger order: the order `ORDER BY e.ledger_sequence ASC` fixes. -/
theorem getEvents_ledgers_sorted (hs : Reachable ingested s)
    (hsel : s.Answers cursorRange contractIDs selected) :
    ((getEvents cursorRange contractIDs f selected).1.map fun call => call.cursor.ledger).Pairwise
      (· ≤ ·) := by
  cases selected with
  | error msg => simp [getEvents]
  | ok rows =>
    obtain ⟨m, hcalls⟩ := getEvents_prefix cursorRange contractIDs f rows
    have hrow : ∀ row ∈ rows, row.lcm.ledgerSequence = row.ledgerSequence := fun row hrow => by
      obtain ⟨e, -, -, -, hseq, hrowseq, -⟩ := hs.storeInv.selected_event (hsel.1.mem_iff.mp hrow)
      rw [hseq, hrowseq]
    rw [hcalls, List.pairwise_map]
    refine List.Pairwise.sublist (List.take_sublist m _) (List.pairwise_flatMap.mpr
      ⟨fun row _ => List.pairwise_of_forall_mem_list fun c hc d hd => ?_,
        hsel.2.imp_of_mem fun ha hb hab c hc d hd => ?_⟩)
    · rw [ledger_of_mem_rowCalls hc, ledger_of_mem_rowCalls hd]
      exact UInt32.le_refl _
    · rw [ledger_of_mem_rowCalls hc, ledger_of_mem_rowCalls hd, hrow _ ha, hrow _ hb]
      exact hab

/-- `twoContractLedger`'s transaction, closed as ledger `seq`. -/
def twoContractLedgerAt (seq : UInt32) : LedgerCloseMeta :=
  { twoContractLedger with ledgerSequence := seq }

def twoLedgerStore : Store := twoContractStore.ingest ⟨some ⟨fun _ => none⟩⟩ (twoContractLedgerAt 20)

theorem reachable_twoLedgerStore :
    Reachable [twoContractLedgerAt 20, twoContractLedger] twoLedgerStore :=
  .ingest _ _ reachable_twoContractStore (by decide)

def twoLedgerRange : CursorRange := ⟨⟨0, 0, 0⟩, ⟨30, 0, 0⟩⟩

theorem getEvents_ledgers_sorted_twoLedgerStore :
    ((getEvents twoLedgerRange [] (fun _ _ => true)
      (.ok (twoLedgerStore.selectEvents twoLedgerRange []))).1.map
        fun call => call.cursor.ledger).Pairwise (· ≤ ·) :=
  getEvents_ledgers_sorted reachable_twoLedgerStore
    (show twoLedgerStore.Answers twoLedgerRange [] (.ok (twoLedgerStore.selectEvents twoLedgerRange []))
      from ⟨.refl _, by decide⟩)

/-- A transaction with two events has two index rows, and each row is expanded to both events, so
the scan presents each cursor twice. With two transactions in one ledger the database may return
the second one's row first, and the cursors go down. -/
theorem getEvents_cursors_not_increasing :
    Reachable [twoContractLedger] twoContractStore ∧ twoContractStore.Answers wholeRange [] (.ok (twoContractStore.selectEvents wholeRange [])) ∧
      (getEvents wholeRange [] (fun _ _ => true)
        (.ok (twoContractStore.selectEvents wholeRange []))).1.map ScanCall.cursor =
        [⟨2, 1, 0⟩, ⟨2, 1, 1⟩, ⟨2, 1, 0⟩, ⟨2, 1, 1⟩] ∧
      Reachable [twoEventLedger] (Store.empty.ingest ⟨some ⟨fun _ => none⟩⟩ twoEventLedger) ∧
      (Store.empty.ingest ⟨some ⟨fun _ => none⟩⟩ twoEventLedger).Answers wholeRange []
        (.ok ((Store.empty.ingest ⟨some ⟨fun _ => none⟩⟩ twoEventLedger).selectEvents
          wholeRange []).reverse) ∧
      (getEvents wholeRange [] (fun _ _ => true)
        (.ok ((Store.empty.ingest ⟨some ⟨fun _ => none⟩⟩ twoEventLedger).selectEvents
          wholeRange []).reverse)).1.map ScanCall.cursor = [⟨2, 2, 0⟩, ⟨2, 1, 0⟩] :=
  ⟨reachable_twoContractStore, ⟨.refl _, by decide⟩, by decide, .ingest _ _ .empty (by simp), ⟨List.reverse_perm _, by decide⟩,
    by decide⟩

/-- With a non-empty filter, every event a scan on a reachable state presents is the event its
cursor names in a transaction with an event of a contract of the filter. -/
theorem getEvents_transaction_in_filter (hs : Reachable ingested s)
    (hsel : s.Answers cursorRange contractIDs selected) (hids : contractIDs ≠ [])
    {call : ScanCall} (h : call ∈ (getEvents cursorRange contractIDs f selected).1) :
    ∃ lcm, ingestedLedger ingested call.cursor.ledger = some lcm ∧
      ∃ meta, lcm.txProcessing.toList[call.cursor.tx.toNat - 1]? = some meta ∧
        ∃ evs, meta.txApplyProcessing.diagnosticEvents = .ok evs ∧
          evs.toList[call.cursor.event.toNat]? = some call.event ∧
          ∃ ev ∈ evs.toList, ∃ id, ev.event.contractId = some id ∧ id.bytes ∈ contractIDs := by
  obtain ⟨lcm, hlcm, -, -, meta, hmeta, -, -, evs, hevs, hat⟩ := hs.storeInv.mem_getEvents hsel h
  obtain ⟨row, hrow, hledger, htx⟩ := mem_getEvents_selected hsel h
  obtain ⟨e, -, hmatch, hmem, -, -, htx', -, -, -, meta', evs', -, hmeta', -, -, hevs', ev, hev,
    hrowev⟩ := hs.storeInv.selected_event hrow
  obtain rfl : row.lcm = lcm := Option.some.inj
    ((hs.storeInv.ingestedLedger_eq hmem).symm.trans (hledger ▸ hlcm))
  rw [← htx', ← htx, hmeta] at hmeta'
  obtain rfl := Option.some.inj hmeta'
  rw [hevs] at hevs'
  obtain rfl := Except.ok.inj hevs'
  have hin : contractIdIn contractIDs e.contractId = true := by
    simp only [rowMatches, Bool.and_eq_true, Bool.or_eq_true, List.isEmpty_iff, hids,
      false_or] at hmatch
    exact hmatch.2
  rw [← hrowev] at hin
  refine ⟨_, hlcm, meta, hmeta, evs, hevs, hat, ev, hev, ?_⟩
  cases hc : ev.event.contractId with
  | none => simp [eventRow, contractIdIn, hc] at hin
  | some id => exact ⟨id, rfl, by simpa [eventRow, contractIdIn, hc] using hin⟩

def callB : ScanCall := ⟨eventB, ⟨2, 1, 1⟩, 150, ⟨List.replicate 32 1, rfl⟩⟩

theorem getEvents_transaction_in_filter_callB :
    ∃ lcm, ingestedLedger [twoContractLedger] callB.cursor.ledger = some lcm ∧
      ∃ meta, lcm.txProcessing.toList[callB.cursor.tx.toNat - 1]? = some meta ∧
        ∃ evs, meta.txApplyProcessing.diagnosticEvents = .ok evs ∧
          evs.toList[callB.cursor.event.toNat]? = some callB.event ∧
          ∃ ev ∈ evs.toList, ∃ id, ev.event.contractId = some id ∧ id.bytes ∈ [hashA.bytes] :=
  getEvents_transaction_in_filter reachable_twoContractStore
    (show twoContractStore.Answers wholeRange [hashA.bytes]
      (.ok (twoContractStore.selectEvents wholeRange [hashA.bytes])) from ⟨.refl _, by decide⟩)
    (by decide)
    (by decide : callB ∈ (getEvents wholeRange [hashA.bytes] (fun _ _ => true)
      (.ok (twoContractStore.selectEvents wholeRange [hashA.bytes]))).1)

/-- With the filter `[A]` the row of `eventA` matches, and the scan presents `eventB` too. -/
theorem getEvents_presents_other_contract :
    Reachable [twoContractLedger] twoContractStore ∧ twoContractStore.Answers wholeRange [hashA.bytes]
        (.ok (twoContractStore.selectEvents wholeRange [hashA.bytes])) ∧
      (getEvents wholeRange [hashA.bytes] (fun _ _ => true)
        (.ok (twoContractStore.selectEvents wholeRange [hashA.bytes]))).1.map ScanCall.event =
        [eventA, eventB] ∧
      eventB.event.contractId = some hashB ∧ hashB.bytes ∉ [hashA.bytes] :=
  ⟨reachable_twoContractStore, ⟨.refl _, by decide⟩, by decide, rfl, by decide⟩

end SorobanRpc
