import SorobanRpc.Db.Ingest
import SorobanRpc.Proof.Insert
/-!
# What the event-table migration writes

The migration's `Apply` is `InsertEvents` through the statement cache of the migration's
transaction. When every statement succeeds and the reader reads every record through, each record
of the migration's range contributes exactly its rows (`insertEvents_of_decodes`), so the migration
run on an empty table writes one row per diagnostic event of each successful transaction of each
record in its range, in order, and returns `nil`.
-/

namespace SorobanRpc

variable {stmtCache : StmtCache} {lcms : List LedgerCloseMeta}

/-- A migration whose writer's statements all succeed appends the rows of every record of its
range, and returns `nil`. -/
theorem EventTableMigration.run_of_decodes {m : EventTableMigration}
    (hwriter : m.writer = ⟨some stmtCache⟩) (hexec : ∀ n, stmtCache.exec n = none)
    (hlcms : ∀ lcm ∈ lcms, LedgerDecodes lcm) (events : List EventRow) :
    m.run lcms events = (events ++ (lcms.filter fun lcm =>
      m.applicableRange.contains lcm.ledgerSequence).flatMap ledgerEventRows, .ok ()) := by
  induction lcms generalizing events with
  | nil => simp [EventTableMigration.run]
  | cons lcm lcms ih =>
    have ih := ih fun l hl => hlcms l (List.mem_cons_of_mem _ hl)
    by_cases hin : m.applicableRange.contains lcm.ledgerSequence
    · simp [EventTableMigration.run, hin, EventTableMigration.apply, hwriter,
        insertEvents_of_decodes hexec (hlcms lcm (List.mem_cons_self _ _)), ih]
    · simp [EventTableMigration.run, hin, ih]

/-- With a statement cache whose statements all succeed, the event-table migration run on an empty
table over records the reader reads through returns `nil` and leaves exactly the rows of the
records in its range: one per diagnostic event of each successful transaction, in order. -/
theorem migration_writes_range_rows (retentionWindow latestLedger : UInt32)
    (hexec : ∀ n, stmtCache.exec n = none) (hlcms : ∀ lcm ∈ lcms, LedgerDecodes lcm) :
    (newEventTableMigration retentionWindow stmtCache latestLedger).run lcms [] =
      ((lcms.filter fun lcm => (newEventTableMigration retentionWindow stmtCache
        latestLedger).applicableRange.contains lcm.ledgerSequence).flatMap ledgerEventRows,
        .ok ()) := by
  simpa using EventTableMigration.run_of_decodes rfl hexec hlcms []

theorem migration_writes_range_rows_mixedLedger :
    (newEventTableMigration 5 ⟨fun _ => none⟩ 10).run [twoEventLedger, mixedLedger] [] =
      (([twoEventLedger, mixedLedger].filter fun lcm => (newEventTableMigration 5
        ⟨fun _ => none⟩ 10).applicableRange.contains lcm.ledgerSequence).flatMap ledgerEventRows,
        .ok ()) :=
  migration_writes_range_rows 5 10 (fun _ => rfl) (by decide)

end SorobanRpc
