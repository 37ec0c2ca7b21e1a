import SorobanRpc.Db.Event
/-!
# The runs of the event store

The states the event table can reach. Ingesting a ledger stores its record under its sequence and
runs `InsertEvents` on it; a trim runs `trimEvents`; and the ledger store may delete a ledger's
record. The ingestion loop and the ledger writer are not in the sources, so the steps follow the
spec's description of them, and each step takes any handler, so every answer the database may give
to each statement is a run of the model. A failed `InsertEvents` keeps what it wrote: the runs
where the enclosing transaction rolls it back are runs that skip the step.

`Reachable ingested s` also records the ledgers ingested so far, newest first. No sequence is
ingested twice, so the record ingested for a sequence is well defined even after the ledger store
deleted it.

The runner of the one-shot migrations is not in the sources either: `EventTableMigration.run`
follows the spec's description of it.
-/

namespace SorobanRpc

namespace Store

/-- The empty tables. -/
def empty : Store := ⟨fun _ => none, []⟩

/-- Modelled from the spec: ingesting `lcm`, stored under its sequence, then `InsertEvents`. -/
def ingest (s : Store) (handler : EventHandler) (lcm : LedgerCloseMeta) : Store where
  ledgers seq := if seq = lcm.ledgerSequence then some lcm else s.ledgers seq
  events := (handler.insertEvents lcm s.events).1

/-- A call `trimEvents(latestLedgerSeq, retentionWindow)`. -/
def trim (s : Store) (handler : EventHandler) (latestLedgerSeq retentionWindow : UInt32) : Store :=
  { s with events := (handler.trimEvents latestLedgerSeq retentionWindow s.events).1 }

/-- Modelled from the spec: the ledger store deleting the record of `seq`. -/
def deleteLedger (s : Store) (seq : UInt32) : Store :=
  { s with ledgers := fun seq' => if seq' = seq then none else s.ledgers seq' }

/-- Modelled from the spec: one turn of the ingestion engine, which ingests `lcm` and then trims the
event table to the retention window of the new latest ledger. -/
def ingestAndTrim (s : Store) (handler : EventHandler) (retentionWindow : UInt32)
    (lcm : LedgerCloseMeta) : Store :=
  (s.ingest handler lcm).trim handler lcm.ledgerSequence retentionWindow

@[simp] theorem ingest_events (s : Store) (handler : EventHandler) (lcm : LedgerCloseMeta) :
    (s.ingest handler lcm).events = (handler.insertEvents lcm s.events).1 := rfl

@[simp] theorem trim_events (s : Store) (handler : EventHandler)
    (latestLedgerSeq retentionWindow : UInt32) :
    (s.trim handler latestLedgerSeq retentionWindow).events =
      (handler.trimEvents latestLedgerSeq retentionWindow s.events).1 := rfl

@[simp] theorem trim_ledgers (s : Store) (handler : EventHandler)
    (latestLedgerSeq retentionWindow : UInt32) :
    (s.trim handler latestLedgerSeq retentionWindow).ledgers = s.ledgers := rfl

@[simp] theorem deleteLedger_events (s : Store) (seq : UInt32) :
    (s.deleteLedger seq).events = s.events := rfl

end Store

/-- The states reachable from the empty tables, with the ledgers ingested on the way. -/
inductive Reachable : List LedgerCloseMeta → Store → Prop
  | empty : Reachable [] Store.empty
  | ingest {ingested : List LedgerCloseMeta} {s : Store} (handler : EventHandler)
      (lcm : LedgerCloseMeta) : Reachable ingested s →
      lcm.ledgerSequence ∉ ingested.map LedgerCloseMeta.ledgerSequence →
      Reachable (lcm :: ingested) (s.ingest handler lcm)
  | trim {ingested : List LedgerCloseMeta} {s : Store} (handler : EventHandler)
      (latestLedgerSeq retentionWindow : UInt32) : Reachable ingested s →
      Reachable ingested (s.trim handler latestLedgerSeq retentionWindow)
  | deleteLedger {ingested : List LedgerCloseMeta} {s : Store} (seq : UInt32) :
      Reachable ingested s → Reachable ingested (s.deleteLedger seq)

/-- The record ingested for the sequence `seq`. -/
def ingestedLedger (ingested : List LedgerCloseMeta) (seq : UInt32) : Option LedgerCloseMeta :=
  ingested.find? fun lcm => lcm.ledgerSequence = seq

theorem ingestedLedger_cons (lcm : LedgerCloseMeta) (ingested : List LedgerCloseMeta)
    (seq : UInt32) : ingestedLedger (lcm :: ingested) seq =
      if lcm.ledgerSequence = seq then some lcm else ingestedLedger ingested seq := by
  by_cases h : lcm.ledgerSequence = seq <;> simp [ingestedLedger, List.find?_cons, h]

theorem ingestedLedger_eq_none {ingested : List LedgerCloseMeta} {seq : UInt32}
    (h : seq ∉ ingested.map LedgerCloseMeta.ledgerSequence) : ingestedLedger ingested seq = none := by
  simpa [ingestedLedger, List.find?_eq_none] using h

/-! ### The migration runner -/

/-- Modelled from the spec: whether the ledger `seq` lies in the range `[first, last]`. -/
def LedgerSeqRange.contains (r : LedgerSeqRange) (seq : UInt32) : Bool :=
  decide (r.firstLedgerSeq ≤ seq) && decide (seq ≤ r.lastLedgerSeq)

/-- Modelled from the spec: the migration runner over the ledger store's records `lcms`, in
ascending order. It applies the migration to each record of its range and stops at the first
error. -/
def EventTableMigration.run (m : EventTableMigration) :
    List LedgerCloseMeta → List EventRow → List EventRow × Except InsertEventsError Unit
  | [], events => (events, .ok ())
  | lcm :: lcms, events =>
    if m.applicableRange.contains lcm.ledgerSequence then
      match m.apply lcm events with
      | (events, .ok ()) => m.run lcms events
      | (events, .error err) => (events, .error err)
    else m.run lcms events

end SorobanRpc
