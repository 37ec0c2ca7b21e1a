import SorobanRpc.Xdr
import SorobanRpc.Db.Cursor
/-!
# The event handler

`db/event.go`: the write path `InsertEvents`, the retention trim `trimEvents`, the read path
`GetEvents`, and the event-table migration. The handler reaches the database in two ways. Writes
go through the statement cache of the ingest transaction, and the database decides whether each
statement succeeds. The read is one `SELECT`, which the database answers with the matching rows in
an order of its choosing, so far as `ORDER BY e.ledger_sequence ASC` constrains it, or with an
error. Both are inputs of the model: `StmtCache.exec` and the `selected` argument of `getEvents`.

The visitor of `GetEvents` is a Go closure. The model records every call it receives and lets its
answer depend on the calls before, which is all a closure's state can make it depend on.
-/

namespace SorobanRpc

structure EventRow where
  ledgerSequence : UInt32
  applicationOrder : UInt32
  contractId : Option (List UInt8)
  eventType : Int
deriving DecidableEq

/-- Modelled from the spec: the two tables the handler reads, `events` and the `ledgers` table
of ledger-close-meta blobs keyed by sequence, which `GetEvents` joins with. -/
structure Store where
  ledgers : UInt32 → Option LedgerCloseMeta
  events : List EventRow

/-- `sq.StmtCache` over the ingest transaction: `exec n` is the database's answer to the `n`-th
statement one call runs through it, `none` when the statement succeeds. -/
structure StmtCache where
  exec : Nat → Option String

structure EventHandler where
  stmtCache : Option StmtCache

/-- `NewEventReader(log, db, passphrase)`: a handler for reads only, without a statement cache. -/
def newEventReader : EventHandler := ⟨none⟩

/-! ### `InsertEvents` -/

inductive InsertEventsError
  /-- "EventWriter incorrectly initialized without stmtCache" -/
  | noStmtCache
  /-- "failed to open transaction reader for ledger %d: %w " -/
  | openReader (ledger : UInt32) (err : String)
  /-- a failed `txReader.Read()` -/
  | read (err : ReadError)
  /-- a failed `tx.GetDiagnosticEvents()` -/
  | diagnosticEvents (err : String)
  /-- a failed `Exec` of a transaction's insert -/
  | exec (err : String)
deriving DecidableEq

def eventRow (ledgerSequence index : UInt32) (e : DiagnosticEvent) : EventRow :=
  ⟨ledgerSequence, index, e.event.contractId.map Hash.bytes, e.event.type.toInt⟩

/-- The loop of `InsertEvents` over the transaction reader. `metas` are the entries the reader has
left and `i` its position, so each turn is one `txReader.Read()`, and `io.EOF` comes when no entry
is left; `n` counts the statements run so far. -/
def insertEventsLoop (cache : StmtCache) (ledgerSequence : UInt32) (envelopesByHash : List Hash) :
    List TransactionResultMeta → Nat → Nat → List EventRow →
      List EventRow × Except InsertEventsError Unit
  | [], _, _, events => (events, .ok ())
  | meta :: metas, i, n, events =>
    match readTransaction envelopesByHash i meta with
    | .error err => (events, .error (.read err))
    | .ok tx =>
      if !tx.result.successful then
        insertEventsLoop cache ledgerSequence envelopesByHash metas (i + 1) n events
      else
        match tx.getDiagnosticEvents with
        | .error err => (events, .error (.diagnosticEvents err))
        | .ok txEvents =>
          if txEvents.toList.length = 0 then
            insertEventsLoop cache ledgerSequence envelopesByHash metas (i + 1) n events
          else
            match cache.exec n with
            | some err => (events, .error (.exec err))
            | none =>
              insertEventsLoop cache ledgerSequence envelopesByHash metas (i + 1) (n + 1)
                (events ++ txEvents.toList.map (eventRow ledgerSequence tx.index))

/-- `eventHandler.InsertEvents(lcm)` on the events table `events`: the table afterwards, and the
error it returns. -/
def EventHandler.insertEvents (handler : EventHandler) (lcm : LedgerCloseMeta)
    (events : List EventRow) : List EventRow × Except InsertEventsError Unit :=
  match handler.stmtCache with
  | none => (events, .error .noStmtCache)
  | some cache =>
    if lcm.countTransactions = 0 then (events, .ok ())
    else
      match newLedgerTransactionReaderFromLedgerCloseMeta lcm with
      | .error err => (events, .error (.openReader lcm.ledgerSequence err))
      | .ok txReader =>
        insertEventsLoop cache lcm.ledgerSequence txReader.envelopesByHash
          lcm.txProcessing.toList 0 0 events

/-! ### `trimEvents` -/

/-- `eventHandler.trimEvents(latestLedgerSeq, retentionWindow)`, in `uint32` arithmetic. Without a
statement cache Go dereferences the nil cache in `Exec`. -/
def EventHandler.trimEvents (handler : EventHandler) (latestLedgerSeq retentionWindow : UInt32)
    (events : List EventRow) : List EventRow × Except String Unit :=
  if latestLedgerSeq + 1 ≤ retentionWindow then (events, .ok ())
  else
    let cutoff := latestLedgerSeq + 1 - retentionWindow
    match handler.stmtCache with
    | none => (events, .error "invalid memory address or nil pointer dereference")
    | some cache =>
      match cache.exec 0 with
      | some err => (events, .error err)
      | none => (events.filter fun e => !decide (e.ledgerSequence < cutoff), .ok ())

/-! ### `GetEvents` -/

/-- The arguments of one call `f(event, cursor, ledgerCloseTimestamp, txHash)`. -/
structure ScanCall where
  event : DiagnosticEvent
  cursor : Cursor
  ledgerCloseTimestamp : Int
  txHash : Hash
deriving DecidableEq

/-- `ScanFunction`: the visitor's answer to a call, given the calls it answered before. -/
abbrev ScanFunction := List ScanCall → ScanCall → Bool

/-- A row of the query's result, `e.application_order` and `lcm.meta`, with the
`e.ledger_sequence` the rows are ordered by. The column holds the `uint32` index `InsertEvents`
wrote, so Go's `int` holds it exactly. -/
structure SelectedRow where
  ledgerSequence : UInt32
  txIndex : UInt32
  lcm : LedgerCloseMeta

/-- `e.contract_id IN (contractIDs)`, which a `NULL` id never satisfies. -/
def contractIdIn (contractIDs : List (List UInt8)) : Option (List UInt8) → Bool
  | some id => contractIDs.contains id
  | none => false

/-- The `WHERE` clause of the query; the contract filter is added only for a non-empty list. -/
def rowMatches (cursorRange : CursorRange) (contractIDs : List (List UInt8)) (e : EventRow) :
    Bool :=
  decide (cursorRange.start.ledger ≤ e.ledgerSequence) &&
    decide (cursorRange.start.tx ≤ e.applicationOrder) &&
    decide (e.ledgerSequence < cursorRange.end.ledger) &&
    (contractIDs.isEmpty || contractIdIn contractIDs e.contractId)

/-- The query's rows, in the events table's order: every matching events row joined with the
ledger of its sequence. -/
def Store.selectEvents (s : Store) (cursorRange : CursorRange)
    (contractIDs : List (List UInt8)) : List SelectedRow :=
  s.events.filterMap fun e =>
    if rowMatches cursorRange contractIDs e then
      (s.ledgers e.ledgerSequence).map (SelectedRow.mk e.ledgerSequence e.applicationOrder)
    else none

/-- An answer the database may give to the query: an error, or its rows in an order that
`ORDER BY e.ledger_sequence ASC` admits. -/
def Store.Answers (s : Store) (cursorRange : CursorRange) (contractIDs : List (List UInt8)) :
    Except String (List SelectedRow) → Prop
  | .error _ => True
  | .ok rows => rows.Perm (s.selectEvents cursorRange contractIDs) ∧
      rows.Pairwise fun a b => a.ledgerSequence ≤ b.ledgerSequence

inductive GetEventsError
  /-- "db read failed for start ledger cursor= %v contractIDs= %v: %w" -/
  | dbRead (start : Cursor) (contractIDs : List (List UInt8)) (err : String)
  /-- "failed to create ledger reader from LCM: %w" -/
  | createReader (err : String)
  /-- "failed to index to tx %d in ledger %d: %w" -/
  | seek (txIndex ledger : UInt32) (err : ReadError)
  /-- "failed reading tx: %w" -/
  | readTx (err : ReadError)
  /-- "couldn't encode transaction DiagnosticEvents: %w", which wraps the read's `err`, nil at
  that point, in place of `diagErr` -/
  | encodeDiagnosticEvents
deriving DecidableEq

/-- The inner loop over one transaction's diagnostic events from index `i` on: the calls made,
`seen` included, and whether the scan goes on. -/
def scanEvents (f : ScanFunction) (ledger tx : UInt32) (closeTime : Int) (hash : Hash) :
    Nat → List DiagnosticEvent → List ScanCall → List ScanCall × Bool
  | _, [], seen => (seen, true)
  | i, event :: events, seen =>
    let call : ScanCall := ⟨event, ⟨ledger, tx, UInt32.ofNat i⟩, closeTime, hash⟩
    if f seen call then scanEvents f ledger tx closeTime hash (i + 1) events (seen ++ [call])
    else (seen ++ [call], false)

/-- The first half of the row loop's body: a reader on the row's ledger, moved to the row's
transaction, which is read and asked for its diagnostic events. -/
def readRow (row : SelectedRow) :
    Except GetEventsError (LedgerTransaction × XdrArray DiagnosticEvent) := do
  let reader ← (newLedgerTransactionReaderFromLedgerCloseMeta row.lcm).mapError .createReader
  let reader ← (reader.seek ((row.txIndex.toNat : Int) - 1)).mapError
    (.seek row.txIndex row.lcm.ledgerSequence)
  let (ledgerTx, _) ← reader.read.mapError .readTx
  let diagEvents ← ledgerTx.getDiagnosticEvents.mapError fun _ => .encodeDiagnosticEvents
  pure (ledgerTx, diagEvents)

/-- The loop over the query's rows: every row is expanded to all diagnostic events of the
transaction it points to. -/
def scanRows (f : ScanFunction) :
    List SelectedRow → List ScanCall → List ScanCall × Except GetEventsError Unit
  | [], seen => (seen, .ok ())
  | row :: rows, seen =>
    match readRow row with
    | .error err => (seen, .error err)
    | .ok (ledgerTx, diagEvents) =>
      match scanEvents f row.lcm.ledgerSequence row.txIndex row.lcm.ledgerCloseTime
          ledgerTx.result.transactionHash 0 diagEvents.toList seen with
      | (seen, true) => scanRows f rows seen
      | (seen, false) => (seen, .ok ())

/-- `eventHandler.GetEvents(ctx, cursorRange, contractIDs, f)` when the database answers the query
with `selected`: the calls `f` receives, and the error returned. -/
def getEvents (cursorRange : CursorRange) (contractIDs : List (List UInt8)) (f : ScanFunction)
    (selected : Except String (List SelectedRow)) : List ScanCall × Except GetEventsError Unit :=
  match selected with
  | .error err => ([], .error (.dbRead cursorRange.start contractIDs err))
  | .ok rows => if rows.length < 1 then ([], .ok ()) else scanRows f rows []

/-! ### The event-table migration -/

def firstLedger : UInt32 := 2

/-- Modelled from the spec: `LedgerSeqRange`, the ledgers `[first, last]` a migration processes. -/
structure LedgerSeqRange where
  firstLedgerSeq : UInt32
  lastLedgerSeq : UInt32

structure EventTableMigration where
  firstLedger : UInt32
  lastLedger : UInt32
  writer : EventHandler

def EventTableMigration.applicableRange (e : EventTableMigration) : LedgerSeqRange :=
  ⟨e.firstLedger, e.lastLedger⟩

def EventTableMigration.apply (e : EventTableMigration) (meta : LedgerCloseMeta)
    (events : List EventRow) : List EventRow × Except InsertEventsError Unit :=
  e.writer.insertEvents meta events

/-- The migration `newEventTableMigration(logger, retentionWindow, passphrase)`'s factory builds
for a database at `latestLedger`, whose transaction has the statement cache `stmtCache`. -/
def newEventTableMigration (retentionWindow : UInt32) (stmtCache : StmtCache)
    (latestLedger : UInt32) : EventTableMigration :=
  let firstLedgerToMigrate :=
    if latestLedger > retentionWindow then latestLedger - retentionWindow else firstLedger
  { firstLedger := firstLedgerToMigrate, lastLedger := latestLedger, writer := ⟨some stmtCache⟩ }

end SorobanRpc
