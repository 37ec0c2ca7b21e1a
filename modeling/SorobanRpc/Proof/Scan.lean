import SorobanRpc.Db.Event
/-!
# What a scan calls its visitor with

Facts about `GetEvents` that hold of every answer of the database: the visitor only ever sees
diagnostic events of the transactions the returned rows point to, each with the cursor
`(ledger, row's application order, index in the transaction)`; and the scan fails only on the
database's error or on a row it cannot read. `readRow_eq_ok` says when a row can be read.
-/

namespace SorobanRpc

/-- The call the scan makes for the `j`-th diagnostic event `event` of the transaction `ledgerTx`,
which the row `row` points to. -/
def rowCall (row : SelectedRow) (ledgerTx : LedgerTransaction) (j : Nat) (event : DiagnosticEvent) :
    ScanCall :=
  ⟨event, ⟨row.lcm.ledgerSequence, row.txIndex, UInt32.ofNat j⟩, row.lcm.ledgerCloseTime,
    ledgerTx.result.transactionHash⟩

theorem mem_selectEvents {s : Store} {cursorRange : CursorRange} {contractIDs : List (List UInt8)}
    {row : SelectedRow} : row ∈ s.selectEvents cursorRange contractIDs ↔
      ∃ e ∈ s.events, rowMatches cursorRange contractIDs e = true ∧
        s.ledgers e.ledgerSequence = some row.lcm ∧ row.ledgerSequence = e.ledgerSequence ∧
        row.txIndex = e.applicationOrder := by
  simp only [Store.selectEvents, List.mem_filterMap]
  refine exists_congr fun e => and_congr_right fun _ => ?_
  split
  · rename_i hmatch
    simp only [Option.map_eq_some', hmatch, true_and]
    constructor
    · rintro ⟨lcm, hlcm, rfl⟩
      exact ⟨hlcm, rfl, rfl⟩
    · rintro ⟨hlcm, hseq, htx⟩
      exact ⟨row.lcm, hlcm, by rw [← hseq, ← htx]⟩
  · simp_all

/-- A row can be read when the reader opens on its ledger and knows the transaction at the row's
application order: the scan then sees that transaction and its diagnostic events. -/
theorem readRow_eq_ok {row : SelectedRow} {hashes : List Hash} {meta : TransactionResultMeta}
    {evs : XdrArray DiagnosticEvent}
    (hopen : row.lcm.txSet.mapM TransactionEnvelope.hash = .ok hashes)
    (hindex : 1 ≤ row.txIndex.toNat)
    (hmeta : row.lcm.txProcessing.toList[row.txIndex.toNat - 1]? = some meta)
    (hknown : meta.result.transactionHash ∈ hashes)
    (hevents : meta.txApplyProcessing.diagnosticEvents = .ok evs) :
    readRow row = .ok (⟨row.txIndex, meta.result, meta.txApplyProcessing⟩, evs) := by
  have hlt : row.txIndex.toNat - 1 < row.lcm.countTransactions :=
    (List.getElem?_eq_some_iff.mp hmeta).1
  have hseek : (⟨row.lcm, hashes, 0⟩ : LedgerTransactionReader).seek ((row.txIndex.toNat : Int) - 1) =
      .ok ⟨row.lcm, hashes, row.txIndex.toNat - 1⟩ := by
    rw [show (row.txIndex.toNat : Int) - 1 = ((row.txIndex.toNat - 1 : Nat) : Int) by omega]
    exact LedgerTransactionReader.seek_eq_ok hlt
  have hread : (⟨row.lcm, hashes, row.txIndex.toNat - 1⟩ : LedgerTransactionReader).read =
      (readTransaction hashes (row.txIndex.toNat - 1) meta).map fun tx =>
        (tx, ⟨row.lcm, hashes, row.txIndex.toNat - 1 + 1⟩) :=
    LedgerTransactionReader.read_eq hmeta
  have hnext : UInt32.ofNat (row.txIndex.toNat - 1 + 1) = row.txIndex := by
    rw [Nat.sub_add_cancel hindex, uint32_ofNat_toNat]
  simp only [readRow, newLedgerTransactionReaderFromLedgerCloseMeta, hopen, Except.map,
    Except.mapError, bind, Except.bind, hseek, hread, readTransaction, hknown, if_true, hnext,
    LedgerTransaction.getDiagnosticEvents, hevents]
  rfl

theorem mem_scanEvents {f : ScanFunction} {ledger tx : UInt32} {closeTime : Int} {hash : Hash}
    {i : Nat} {events : List DiagnosticEvent} {seen : List ScanCall} {c : ScanCall}
    (h : c ∈ (scanEvents f ledger tx closeTime hash i events seen).1) :
    c ∈ seen ∨ ∃ j event, events[j]? = some event ∧
      c = ⟨event, ⟨ledger, tx, UInt32.ofNat (i + j)⟩, closeTime, hash⟩ := by
  induction i, events, seen using scanEvents.induct f ledger tx closeTime hash with
  | case1 => exact .inl h
  | case2 i event events seen call hf ih =>
    simp only [scanEvents, hf, if_true] at h
    rcases ih h with hseen | ⟨j, e, hj, rfl⟩
    · rcases List.mem_append.mp hseen with hseen | hnew
      · exact .inl hseen
      · exact .inr ⟨0, event, by simp, by simpa using hnew⟩
    · exact .inr ⟨j + 1, e, by simpa using hj, by simp [Nat.add_assoc, Nat.add_comm 1]⟩
  | case3 i event events seen call hf =>
    simp only [scanEvents, hf, if_false] at h
    rcases List.mem_append.mp h with hseen | hnew
    · exact .inl hseen
    · exact .inr ⟨0, event, by simp, by simpa using hnew⟩

/-- A call of the inner loop over the events of the transaction a row points to is one of the
calls before, or the row's call for one of those events. -/
theorem mem_scanEvents_row {f : ScanFunction} {row : SelectedRow} {ledgerTx : LedgerTransaction}
    {diagEvents : XdrArray DiagnosticEvent} {seen : List ScanCall} {call : ScanCall}
    (h : call ∈ (scanEvents f row.lcm.ledgerSequence row.txIndex row.lcm.ledgerCloseTime
      ledgerTx.result.transactionHash 0 diagEvents.toList seen).1) :
    call ∈ seen ∨ ∃ j event, diagEvents.toList[j]? = some event ∧
      call = rowCall row ledgerTx j event := by
  rcases mem_scanEvents h with hseen | ⟨j, event, hj, rfl⟩
  · exact .inl hseen
  · exact .inr ⟨j, event, hj, by simp [rowCall]⟩

theorem mem_scanRows {f : ScanFunction} {rows : List SelectedRow} {seen : List ScanCall}
    {call : ScanCall} (h : call ∈ (scanRows f rows seen).1) :
    call ∈ seen ∨ ∃ row ∈ rows, ∃ ledgerTx diagEvents, readRow row = .ok (ledgerTx, diagEvents) ∧
      ∃ j event, diagEvents.toList[j]? = some event ∧ call = rowCall row ledgerTx j event := by
  induction rows, seen using scanRows.induct f with
  | case1 => exact .inl h
  | case2 row rows seen err hread =>
    simp only [scanRows, hread] at h
    exact .inl h
  | case3 row rows seen ledgerTx diagEvents hread seen' hscan ih =>
    simp only [scanRows, hread, hscan] at h
    rcases ih h with hseen | ⟨row', hrow', hrest⟩
    · exact (mem_scanEvents_row (by rw [hscan]; exact hseen)).imp_right fun hcall =>
        ⟨row, List.mem_cons_self _ _, ledgerTx, diagEvents, hread, hcall⟩
    · exact .inr ⟨row', List.mem_cons_of_mem _ hrow', hrest⟩
  | case4 row rows seen ledgerTx diagEvents hread seen' hscan =>
    simp only [scanRows, hread, hscan] at h
    exact (mem_scanEvents_row (by rw [hscan]; exact h)).imp_right fun hcall =>
      ⟨row, List.mem_cons_self _ _, ledgerTx, diagEvents, hread, hcall⟩

theorem scanRows_error {f : ScanFunction} {rows : List SelectedRow} {seen : List ScanCall}
    {err : GetEventsError} (h : (scanRows f rows seen).2 = .error err) :
    ∃ row ∈ rows, readRow row = .error err := by
  induction rows, seen using scanRows.induct f with
  | case1 => simp [scanRows] at h
  | case2 row rows seen err' hread =>
    simp only [scanRows, hread, Except.error.injEq] at h
    exact ⟨row, List.mem_cons_self _ _, h ▸ hread⟩
  | case3 row rows seen ledgerTx diagEvents hread seen' hscan ih =>
    simp only [scanRows, hread, hscan] at h
    obtain ⟨row', hrow', hread'⟩ := ih h
    exact ⟨row', List.mem_cons_of_mem _ hrow', hread'⟩
  | case4 row rows seen ledgerTx diagEvents hread seen' hscan =>
    simp [scanRows, hread, hscan] at h

/-- Every call of a scan is the call for a diagnostic event of a row of the database's answer. -/
theorem mem_getEvents {cursorRange : CursorRange} {contractIDs : List (List UInt8)}
    {f : ScanFunction} {selected : Except String (List SelectedRow)} {call : ScanCall}
    (h : call ∈ (getEvents cursorRange contractIDs f selected).1) :
    ∃ rows, selected = .ok rows ∧ ∃ row ∈ rows, ∃ ledgerTx diagEvents,
      readRow row = .ok (ledgerTx, diagEvents) ∧
      ∃ j event, diagEvents.toList[j]? = some event ∧ call = rowCall row ledgerTx j event := by
  unfold getEvents at h
  split at h
  · simp at h
  · rename_i rows
    split at h
    · simp at h
    · exact ⟨rows, rfl, (mem_scanRows h).resolve_left (List.not_mem_nil _)⟩

/-- A scan fails on the database's error or on a row of its answer that cannot be read. -/
theorem getEvents_error {cursorRange : CursorRange} {contractIDs : List (List UInt8)}
    {f : ScanFunction} {selected : Except String (List SelectedRow)} {err : GetEventsError}
    (h : (getEvents cursorRange contractIDs f selected).2 = .error err) :
    (∃ msg, selected = .error msg ∧ err = .dbRead cursorRange.start contractIDs msg) ∨
      ∃ rows, selected = .ok rows ∧ ∃ row ∈ rows, readRow row = .error err := by
  unfold getEvents at h
  split at h
  · rename_i msg
    exact .inl ⟨msg, rfl, by simpa [eq_comm] using h⟩
  · rename_i rows
    split at h
    · simp at h
    · exact .inr ⟨rows, rfl, scanRows_error h⟩

/-! ### The order of the calls -/

/-- The calls the inner loop makes for `events` from index `i` on, when the visitor lets it run. -/
def eventCalls (ledger tx : UInt32) (closeTime : Int) (hash : Hash) (i : Nat)
    (events : List DiagnosticEvent) : List ScanCall :=
  (events.enumFrom i).map fun p => ⟨p.2, ⟨ledger, tx, UInt32.ofNat p.1⟩, closeTime, hash⟩

/-- The calls a row expands to when the visitor lets the scan run: one for each diagnostic event of
the transaction the row points to. -/
def rowCalls (row : SelectedRow) : List ScanCall :=
  match readRow row with
  | .ok (ledgerTx, diagEvents) =>
    eventCalls row.lcm.ledgerSequence row.txIndex row.lcm.ledgerCloseTime
      ledgerTx.result.transactionHash 0 diagEvents.toList
  | .error _ => []

theorem mem_eventCalls {ledger tx : UInt32} {closeTime : Int} {hash : Hash} {i j k : Nat}
    {events : List DiagnosticEvent} {event : DiagnosticEvent} (h : events[j]? = some event)
    (hk : k = i + j) :
    ⟨event, ⟨ledger, tx, UInt32.ofNat k⟩, closeTime, hash⟩ ∈
      eventCalls ledger tx closeTime hash i events := by
  subst hk
  exact List.mem_map.mpr ⟨(i + j, event), List.mk_add_mem_enumFrom_iff_getElem?.mpr h, rfl⟩

theorem scanEvents_prefix (f : ScanFunction) (ledger tx : UInt32) (closeTime : Int) (hash : Hash)
    (i : Nat) (events : List DiagnosticEvent) (seen : List ScanCall) :
    ∃ m ≤ events.length, (scanEvents f ledger tx closeTime hash i events seen).1 =
        seen ++ (eventCalls ledger tx closeTime hash i events).take m ∧
      ((scanEvents f ledger tx closeTime hash i events seen).2 = true → m = events.length) := by
  induction i, events, seen using scanEvents.induct f ledger tx closeTime hash with
  | case1 i seen => exact ⟨0, le_rfl, by simp [scanEvents], fun _ => rfl⟩
  | case2 i event events seen call hf ih =>
    obtain ⟨m, hm, hcalls, hdone⟩ := ih
    refine ⟨m + 1, by simpa using hm, ?_, fun h => ?_⟩
    · simp only [scanEvents, hf, if_true, hcalls, eventCalls, List.enumFrom_cons, List.map_cons,
        List.take_succ_cons, List.append_assoc, List.singleton_append]
    · simp only [scanEvents, hf, if_true] at h
      simp [hdone h]
  | case3 i event events seen call hf =>
    refine ⟨1, by simp, ?_, fun h => by simp [scanEvents, hf] at h⟩
    simp [scanEvents, hf, eventCalls]

/-- The inner loop over the events of the transaction a row points to extends the calls by an
initial segment of the row's expansion, all of it when the scan goes on. -/
theorem scanEvents_row_prefix (f : ScanFunction) {row : SelectedRow} {ledgerTx : LedgerTransaction}
    {diagEvents : XdrArray DiagnosticEvent} (hread : readRow row = .ok (ledgerTx, diagEvents))
    (seen : List ScanCall) :
    ∃ k ≤ (rowCalls row).length, (scanEvents f row.lcm.ledgerSequence row.txIndex
        row.lcm.ledgerCloseTime ledgerTx.result.transactionHash 0 diagEvents.toList seen).1 =
        seen ++ (rowCalls row).take k ∧
      ((scanEvents f row.lcm.ledgerSequence row.txIndex row.lcm.ledgerCloseTime
        ledgerTx.result.transactionHash 0 diagEvents.toList seen).2 = true →
        k = (rowCalls row).length) := by
  simp only [rowCalls, hread]
  simpa [eventCalls] using scanEvents_prefix f row.lcm.ledgerSequence row.txIndex
    row.lcm.ledgerCloseTime ledgerTx.result.transactionHash 0 diagEvents.toList seen

/-- Whatever the visitor answers, it sees an initial segment of the rows' expansions, in the
order of the rows. -/
theorem scanRows_prefix (f : ScanFunction) (rows : List SelectedRow) (seen : List ScanCall) :
    ∃ m, (scanRows f rows seen).1 = seen ++ (rows.flatMap rowCalls).take m := by
  induction rows, seen using scanRows.induct f with
  | case1 seen => exact ⟨0, by simp [scanRows]⟩
  | case2 row rows seen err hread => exact ⟨0, by simp [scanRows, hread]⟩
  | case3 row rows seen ledgerTx diagEvents hread seen' hscan ih =>
    obtain ⟨m, hcalls⟩ := ih
    obtain ⟨k, -, hseen, hdone⟩ := scanEvents_row_prefix f hread seen
    rw [hscan] at hseen hdone
    dsimp only at hseen hdone
    refine ⟨(rowCalls row).length + m, ?_⟩
    rw [show scanRows f (row :: rows) seen = scanRows f rows seen' by simp [scanRows, hread, hscan],
      hcalls, hseen, hdone rfl, List.take_length, List.flatMap_cons, List.take_append,
      List.append_assoc]
  | case4 row rows seen ledgerTx diagEvents hread seen' hscan =>
    obtain ⟨k, hk, hseen, -⟩ := scanEvents_row_prefix f hread seen
    rw [hscan] at hseen
    refine ⟨k, ?_⟩
    simp only [scanRows, hread, hscan, hseen, List.flatMap_cons]
    rw [List.take_append_of_le_length hk]

/-- Whatever the visitor answers, `GetEvents` presents an initial segment of the expansions of the
database's rows, in the order the database returned them. -/
theorem getEvents_prefix (cursorRange : CursorRange) (contractIDs : List (List UInt8))
    (f : ScanFunction) (rows : List SelectedRow) :
    ∃ m, (getEvents cursorRange contractIDs f (.ok rows)).1 = (rows.flatMap rowCalls).take m := by
  simp only [getEvents]
  split
  · exact ⟨0, by simp⟩
  · simpa using scanRows_prefix f rows []

/-! ### A visitor that never stops the scan -/

theorem scanEvents_true (ledger tx : UInt32) (closeTime : Int) (hash : Hash) (i : Nat)
    (events : List DiagnosticEvent) (seen : List ScanCall) :
    scanEvents (fun _ _ => true) ledger tx closeTime hash i events seen =
      (seen ++ eventCalls ledger tx closeTime hash i events, true) := by
  induction events generalizing i seen with
  | nil => simp [scanEvents, eventCalls]
  | cons event events ih => simp [scanEvents, ih, eventCalls]

/-- When every row can be read, a visitor that never stops the scan receives the expansions of all
rows, and the scan succeeds. -/
theorem getEvents_true (cursorRange : CursorRange) (contractIDs : List (List UInt8))
    {rows : List SelectedRow} (hread : ∀ row ∈ rows, ∃ v, readRow row = .ok v) :
    getEvents cursorRange contractIDs (fun _ _ => true) (.ok rows) =
      (rows.flatMap rowCalls, .ok ()) := by
  have hscan : ∀ seen, scanRows (fun _ _ => true) rows seen = (seen ++ rows.flatMap rowCalls, .ok ()) := by
    induction rows with
    | nil => simp [scanRows]
    | cons row rows ih =>
      intro seen
      obtain ⟨⟨ledgerTx, diagEvents⟩, hrow⟩ := hread row (List.mem_cons_self _ _)
      simp [scanRows, hrow, scanEvents_true, rowCalls, ih fun r hr => hread r (List.mem_cons_of_mem _ hr)]
  simp only [getEvents]
  split
  · simp_all
  · simpa using hscan []

end SorobanRpc
