import SorobanRpc.Db.Event
/-!
# What `InsertEvents` writes

The rows a ledger should contribute to the event table are one per diagnostic event of each
successful transaction, in apply order (`ledgerEventRows`). `InsertEvents` writes them with one
insert per transaction, so a call that succeeds appends exactly these rows, and a call that fails
has appended the rows of the transactions before the one it failed on: a prefix of the ledger's
transactions, cut at a transaction boundary. Both are one loop invariant, `insertEventsLoop_rows`.
-/

namespace SorobanRpc

/-- The rows the event table should gain for the transaction at 0-based position `i` of a ledger:
one per diagnostic event when the transaction is successful. -/
def txEventRows (ledgerSequence : UInt32) : Nat × TransactionResultMeta → List EventRow
  | (i, meta) =>
    if meta.result.successful then
      match meta.txApplyProcessing.diagnosticEvents with
      | .ok evs => evs.toList.map fun ev =>
        ⟨ledgerSequence, UInt32.ofNat (i + 1), ev.event.contractId.map Hash.bytes, ev.event.type.toInt⟩
      | .error _ => []
    else []

/-- The rows the event table should gain for a ledger, in apply order. -/
def ledgerEventRows (lcm : LedgerCloseMeta) : List EventRow :=
  lcm.txProcessing.toList.enum.flatMap (txEventRows lcm.ledgerSequence)

theorem mem_txEventRows {seq : UInt32} {i : Nat} {meta : TransactionResultMeta} {e : EventRow} :
    e ∈ txEventRows seq (i, meta) ↔ meta.result.successful = true ∧
      ∃ evs, meta.txApplyProcessing.diagnosticEvents = .ok evs ∧
        ∃ ev ∈ evs.toList, eventRow seq (UInt32.ofNat (i + 1)) ev = e := by
  unfold txEventRows
  cases hs : meta.result.successful <;> cases hd : meta.txApplyProcessing.diagnosticEvents <;>
    simp [hs, hd, eventRow]

theorem readTransaction_eq_ok {hashes : List Hash} {i : Nat} {meta : TransactionResultMeta}
    {tx : LedgerTransaction} : readTransaction hashes i meta = .ok tx ↔
      meta.result.transactionHash ∈ hashes ∧
        tx = ⟨UInt32.ofNat (i + 1), meta.result, meta.txApplyProcessing⟩ := by
  unfold readTransaction
  split <;> simp_all [eq_comm]

/-- The rows of a transaction the reader yields, in the terms the loop reads it in. -/
theorem txEventRows_of_read {hashes : List Hash} {i : Nat} {meta : TransactionResultMeta}
    {tx : LedgerTransaction} (hread : readTransaction hashes i meta = .ok tx) (seq : UInt32) :
    txEventRows seq (i, meta) =
      if tx.result.successful then
        match tx.getDiagnosticEvents with
        | .ok evs => evs.toList.map (eventRow seq tx.index)
        | .error _ => []
      else [] := by
  obtain ⟨-, rfl⟩ := readTransaction_eq_ok.mp hread
  rfl

/-- What a run of the loop over `metas` from position `i` did to `events`, ending in `result`: it
appended the rows of the first `k` entries, all of which the reader knew, and it got through
all of them when it returns `nil`. -/
def LoopOutcome (seq : UInt32) (hashes : List Hash) (metas : List TransactionResultMeta) (i : Nat)
    (events : List EventRow) (result : List EventRow × Except InsertEventsError Unit) : Prop :=
  ∃ k, result.1 = events ++ ((metas.enumFrom i).take k).flatMap (txEventRows seq) ∧
    (result.2 = .ok () → k = metas.length) ∧
    ∀ p ∈ (metas.enumFrom i).take k, p.2.result.transactionHash ∈ hashes

theorem LoopOutcome.stop {seq : UInt32} {hashes : List Hash} {metas : List TransactionResultMeta}
    {i : Nat} {events : List EventRow} {err : InsertEventsError} :
    LoopOutcome seq hashes metas i events (events, .error err) :=
  ⟨0, by simp⟩

/-- The loop gets past an entry the reader knows, having appended that entry's rows. -/
theorem LoopOutcome.cons {seq : UInt32} {hashes : List Hash} {meta : TransactionResultMeta}
    {metas : List TransactionResultMeta} {i : Nat} {events : List EventRow}
    {result : List EventRow × Except InsertEventsError Unit}
    (hknown : meta.result.transactionHash ∈ hashes)
    (hrest : LoopOutcome seq hashes metas (i + 1) (events ++ txEventRows seq (i, meta)) result) :
    LoopOutcome seq hashes (meta :: metas) i events result := by
  obtain ⟨k, hrows, hok, hkeys⟩ := hrest
  refine ⟨k + 1, by simp [hrows], fun h => by simp [hok h], ?_⟩
  simp only [List.enumFrom_cons, List.take_succ_cons, List.mem_cons, forall_eq_or_imp]
  exact ⟨hknown, hkeys⟩

theorem insertEventsLoop_rows (cache : StmtCache) (seq : UInt32) (hashes : List Hash)
    (metas : List TransactionResultMeta) (i n : Nat) (events : List EventRow) :
    LoopOutcome seq hashes metas i events (insertEventsLoop cache seq hashes metas i n events) := by
  induction metas, i, n, events using insertEventsLoop.induct cache seq hashes with
  | case1 => exact ⟨0, by simp [insertEventsLoop]⟩
  | case2 meta metas i n events err hread =>
    simpa [insertEventsLoop, hread] using LoopOutcome.stop
  | case3 meta metas i n events tx hread hfail ih =>
    simp only [insertEventsLoop, hread, hfail, if_true]
    refine LoopOutcome.cons (readTransaction_eq_ok.mp hread).1 ?_
    have hfail : tx.result.successful = false := by simpa using hfail
    simpa [txEventRows_of_read hread, hfail] using ih
  | case4 meta metas i n events tx hread hsucc err hdiag =>
    simpa [insertEventsLoop, hread, hsucc, hdiag] using LoopOutcome.stop
  | case5 meta metas i n events tx hread hsucc txEvents hdiag hempty ih =>
    simp only [insertEventsLoop, hread, hsucc, hdiag, hempty, if_true, if_false]
    refine LoopOutcome.cons (readTransaction_eq_ok.mp hread).1 ?_
    have hsucc : tx.result.successful = true := by simpa using hsucc
    simpa [txEventRows_of_read hread, hsucc, hdiag, List.length_eq_zero.mp hempty] using ih
  | case6 meta metas i n events tx hread hsucc txEvents hdiag hempty err hexec =>
    simpa [insertEventsLoop, hread, hsucc, hdiag, hempty, hexec] using LoopOutcome.stop
  | case7 meta metas i n events tx hread hsucc txEvents hdiag hempty hexec ih =>
    simp only [insertEventsLoop, hread, hsucc, hdiag, hempty, hexec, if_false]
    refine LoopOutcome.cons (readTransaction_eq_ok.mp hread).1 ?_
    have hsucc : tx.result.successful = true := by simpa using hsucc
    simpa [txEventRows_of_read hread, hsucc, hdiag] using ih

/-- Every call of `InsertEvents` appends the rows of the ledger's first `k` transactions, all of
which the reader opened on the ledger knew; a call that returns `nil` got through all of them. -/
theorem insertEvents_rows (handler : EventHandler) (lcm : LedgerCloseMeta)
    (events : List EventRow) :
    ∃ k, (handler.insertEvents lcm events).1 =
        events ++ (lcm.txProcessing.toList.enum.take k).flatMap (txEventRows lcm.ledgerSequence) ∧
      ((handler.insertEvents lcm events).2 = .ok () → k = lcm.countTransactions) ∧
      ∀ p ∈ lcm.txProcessing.toList.enum.take k, ∃ hashes,
        lcm.txSet.mapM TransactionEnvelope.hash = .ok hashes ∧ p.2.result.transactionHash ∈ hashes := by
  unfold EventHandler.insertEvents
  split
  · exact ⟨0, by simp⟩
  · split
    · rename_i hcount
      exact ⟨0, by simpa using hcount.symm⟩
    · split
      · exact ⟨0, by simp⟩
      · rename_i reader hreader
        obtain ⟨k, hrows, hok, hkeys⟩ := insertEventsLoop_rows _ lcm.ledgerSequence
          reader.envelopesByHash lcm.txProcessing.toList 0 0 events
        exact ⟨k, hrows, hok, fun p hp =>
          ⟨_, newLedgerTransactionReader_hashes hreader, hkeys p hp⟩⟩

/-- The loop only appends: what it writes and returns does not depend on the rows before. -/
theorem insertEventsLoop_append (cache : StmtCache) (seq : UInt32) (hashes : List Hash)
    (metas : List TransactionResultMeta) (i n : Nat) (pre events : List EventRow) :
    insertEventsLoop cache seq hashes metas i n (pre ++ events) =
      (pre ++ (insertEventsLoop cache seq hashes metas i n events).1,
        (insertEventsLoop cache seq hashes metas i n events).2) := by
  induction metas, i, n, events using insertEventsLoop.induct cache seq hashes with
  | case1 => rfl
  | case2 meta metas i n events err hread => simp [insertEventsLoop, hread]
  | case3 meta metas i n events tx hread hfail ih => simpa [insertEventsLoop, hread, hfail] using ih
  | case4 meta metas i n events tx hread hsucc err hdiag =>
    simp [insertEventsLoop, hread, hsucc, hdiag]
  | case5 meta metas i n events tx hread hsucc txEvents hdiag hempty ih =>
    simpa [insertEventsLoop, hread, hsucc, hdiag, hempty] using ih
  | case6 meta metas i n events tx hread hsucc txEvents hdiag hempty err hexec =>
    simp [insertEventsLoop, hread, hsucc, hdiag, hempty, hexec]
  | case7 meta metas i n events tx hread hsucc txEvents hdiag hempty hexec ih =>
    simpa [insertEventsLoop, hread, hsucc, hdiag, hempty, hexec] using ih

/-- Whatever the statement cache answers, `InsertEvents` appends to the table what it appends to
an empty one, and returns the same error. -/
theorem insertEvents_append (handler : EventHandler) (lcm : LedgerCloseMeta)
    (events : List EventRow) :
    handler.insertEvents lcm events =
      (events ++ (handler.insertEvents lcm []).1, (handler.insertEvents lcm []).2) := by
  unfold EventHandler.insertEvents
  split
  · simp
  · split
    · simp
    · split
      · simp
      · simpa using insertEventsLoop_append _ _ _ _ 0 0 events []

/-- A call of `InsertEvents` that returns `nil` appends exactly the ledger's rows. -/
theorem insertEvents_ok_rows {handler : EventHandler} {lcm : LedgerCloseMeta}
    {events events' : List EventRow} (h : handler.insertEvents lcm events = (events', .ok ())) :
    events' = events ++ ledgerEventRows lcm := by
  obtain ⟨k, hrows, hok, -⟩ := insertEvents_rows handler lcm events
  rw [h] at hrows hok
  rw [show events' = _ from hrows, hok rfl, LedgerCloseMeta.countTransactions, ← List.enum_length,
    List.take_length, ledgerEventRows]

/-- A ledger of two successful transactions with one diagnostic event each. -/
def twoEventLedger : LedgerCloseMeta where
  ledgerSequence := 2
  ledgerCloseTime := 150
  txSet := [⟨.ok ⟨List.replicate 32 1, rfl⟩⟩, ⟨.ok ⟨List.replicate 32 2, rfl⟩⟩]
  txProcessing := ⟨[⟨⟨⟨List.replicate 32 1, rfl⟩, true⟩, ⟨.ok ⟨[⟨⟨none, .contract, [1]⟩⟩], by decide⟩⟩⟩,
    ⟨⟨⟨List.replicate 32 2, rfl⟩, true⟩, ⟨.ok ⟨[⟨⟨none, .contract, [2]⟩⟩], by decide⟩⟩⟩], by decide⟩

/-- Ledger 7: a successful transaction with a contract event and a system event without a
contract, a failed transaction with an event, and a successful transaction without events. -/
def mixedLedger : LedgerCloseMeta where
  ledgerSequence := 7
  ledgerCloseTime := 700
  txSet := [⟨.ok ⟨List.replicate 32 1, rfl⟩⟩, ⟨.ok ⟨List.replicate 32 2, rfl⟩⟩,
    ⟨.ok ⟨List.replicate 32 3, rfl⟩⟩]
  txProcessing := ⟨[
    ⟨⟨⟨List.replicate 32 1, rfl⟩, true⟩, ⟨.ok ⟨[⟨⟨some ⟨List.replicate 32 9, rfl⟩, .contract, [1]⟩⟩,
      ⟨⟨none, .system, [2]⟩⟩], by decide⟩⟩⟩,
    ⟨⟨⟨List.replicate 32 2, rfl⟩, false⟩, ⟨.ok ⟨[⟨⟨none, .contract, [3]⟩⟩], by decide⟩⟩⟩,
    ⟨⟨⟨List.replicate 32 3, rfl⟩, true⟩, ⟨.ok ⟨[], by decide⟩⟩⟩], by decide⟩

theorem insertEvents_ok_rows_mixedLedger :
    [⟨7, 1, some (List.replicate 32 9), 1⟩, ⟨7, 1, none, 0⟩] = [] ++ ledgerEventRows mixedLedger :=
  insertEvents_ok_rows (by decide : (⟨some ⟨fun _ => none⟩⟩ : EventHandler).insertEvents
    mixedLedger [] = ([⟨7, 1, some (List.replicate 32 9), 1⟩, ⟨7, 1, none, 0⟩], .ok ()))

/-- A call of `InsertEvents` that fails has appended the rows of the ledger's first `k`
transactions, for some `k`. -/
theorem insertEvents_error_rows {handler : EventHandler} {lcm : LedgerCloseMeta}
    {events events' : List EventRow} {err : InsertEventsError}
    (h : handler.insertEvents lcm events = (events', .error err)) :
    ∃ k, events' =
      events ++ (lcm.txProcessing.toList.enum.take k).flatMap (txEventRows lcm.ledgerSequence) := by
  obtain ⟨k, hrows, -, -⟩ := insertEvents_rows handler lcm events
  rw [h] at hrows
  exact ⟨k, hrows⟩

/-- The handler's second insert fails after the first succeeded. -/
def secondInsertFails : EventHandler :=
  ⟨some ⟨fun n => if n = 1 then some "disk I/O error" else none⟩⟩

theorem insertEvents_error_rows_twoEventLedger :
    ∃ k, [⟨2, 1, none, 1⟩] = [] ++ (twoEventLedger.txProcessing.toList.enum.take k).flatMap
      (txEventRows twoEventLedger.ledgerSequence) :=
  insertEvents_error_rows (by decide : secondInsertFails.insertEvents twoEventLedger [] =
    ([⟨2, 1, none, 1⟩], .error (.exec "disk I/O error")))

/-- The second insert of a ledger fails: `InsertEvents` returns the error, and the first
transaction's row stays in the table. -/
theorem insertEvents_error_keeps_first_insert :
    secondInsertFails.insertEvents twoEventLedger [] =
      ([⟨2, 1, none, 1⟩], .error (.exec "disk I/O error")) := by
  decide

/-! ### Ledgers the reader reads through -/

/-- A ledger the transaction reader reads through: every envelope hashes, the reader knows every
transaction's result, and every successful transaction's diagnostic events decode. -/
def LedgerDecodes (lcm : LedgerCloseMeta) : Prop :=
  ∃ hashes, lcm.txSet.mapM TransactionEnvelope.hash = .ok hashes ∧
    ∀ meta ∈ lcm.txProcessing.toList, meta.result.transactionHash ∈ hashes ∧
      (meta.result.successful = true → meta.txApplyProcessing.diagnosticEvents.toBool = true)

instance (lcm : LedgerCloseMeta) : Decidable (LedgerDecodes lcm) :=
  match h : lcm.txSet.mapM TransactionEnvelope.hash with
  | .ok hashes =>
    decidable_of_iff (∀ meta ∈ lcm.txProcessing.toList, meta.result.transactionHash ∈ hashes ∧
        (meta.result.successful = true → meta.txApplyProcessing.diagnosticEvents.toBool = true))
      ⟨fun hall => ⟨hashes, h, hall⟩, fun ⟨_, hopen, hall⟩ => by
        cases h.symm.trans hopen
        exact hall⟩
  | .error _ => isFalse fun ⟨_, hopen, _⟩ => by
    rw [h] at hopen
    cases hopen

/-- The loop returns `nil` when the reader knows every entry left, the diagnostic events of every
successful entry decode, and every statement succeeds. -/
theorem insertEventsLoop_ok {cache : StmtCache} (hexec : ∀ n, cache.exec n = none)
    {seq : UInt32} {hashes : List Hash} {metas : List TransactionResultMeta}
    (hmetas : ∀ meta ∈ metas, meta.result.transactionHash ∈ hashes ∧
      (meta.result.successful = true → meta.txApplyProcessing.diagnosticEvents.toBool = true))
    (i n : Nat) (events : List EventRow) :
    (insertEventsLoop cache seq hashes metas i n events).2 = .ok () := by
  induction metas, i, n, events using insertEventsLoop.induct cache seq hashes with
  | case1 => rfl
  | case2 meta metas i n events err hread =>
    simp [readTransaction, (hmetas meta (List.mem_cons_self _ _)).1] at hread
  | case3 meta metas i n events tx hread hfail ih =>
    simp only [insertEventsLoop, hread, hfail, if_true]
    exact ih fun m hm => hmetas m (List.mem_cons_of_mem _ hm)
  | case4 meta metas i n events tx hread hsucc err hdiag =>
    obtain ⟨-, rfl⟩ := readTransaction_eq_ok.mp hread
    have hdecodes := (hmetas meta (List.mem_cons_self _ _)).2 (by simpa using hsucc)
    rw [show meta.txApplyProcessing.diagnosticEvents = .error err from hdiag] at hdecodes
    cases hdecodes
  | case5 meta metas i n events tx hread hsucc txEvents hdiag hempty ih =>
    simp only [insertEventsLoop, hread, hsucc, hdiag, hempty, if_true, if_false]
    exact ih fun m hm => hmetas m (List.mem_cons_of_mem _ hm)
  | case6 meta metas i n events tx hread hsucc txEvents hdiag hempty err hexec' =>
    simp [hexec] at hexec'
  | case7 meta metas i n events tx hread hsucc txEvents hdiag hempty hexec' ih =>
    simp only [insertEventsLoop, hread, hsucc, hdiag, hempty, hexec', if_false]
    exact ih fun m hm => hmetas m (List.mem_cons_of_mem _ hm)

/-- With a statement cache whose statements all succeed, `InsertEvents` on a ledger the reader
reads through returns `nil`, having appended exactly the ledger's rows. -/
theorem insertEvents_of_decodes {cache : StmtCache} (hexec : ∀ n, cache.exec n = none)
    {lcm : LedgerCloseMeta} (hlcm : LedgerDecodes lcm) (events : List EventRow) :
    (⟨some cache⟩ : EventHandler).insertEvents lcm events =
      (events ++ ledgerEventRows lcm, .ok ()) := by
  have hok : ((⟨some cache⟩ : EventHandler).insertEvents lcm events).2 = .ok () := by
    obtain ⟨hashes, hopen, hmetas⟩ := hlcm
    simp only [EventHandler.insertEvents, newLedgerTransactionReaderFromLedgerCloseMeta, hopen,
      Except.map]
    split
    · rfl
    · exact insertEventsLoop_ok hexec hmetas 0 0 events
  obtain ⟨k, hrows, hk, -⟩ := insertEvents_rows ⟨some cache⟩ lcm events
  refine Prod.ext ?_ hok
  rw [hrows, hk hok, LedgerCloseMeta.countTransactions, ← List.enum_length, List.take_length,
    ledgerEventRows]

/-- A call of `InsertEvents` that returns `nil` read every transaction of the ledger with the reader
it opened, and appended all of the ledger's rows. -/
theorem insertEvents_ok_read {handler : EventHandler} {lcm : LedgerCloseMeta}
    {events : List EventRow} (hok : (handler.insertEvents lcm events).2 = .ok ()) :
    (handler.insertEvents lcm events).1 = events ++ ledgerEventRows lcm ∧
      ∀ meta ∈ lcm.txProcessing.toList, ∃ hashes,
        lcm.txSet.mapM TransactionEnvelope.hash = .ok hashes ∧ meta.result.transactionHash ∈ hashes := by
  obtain ⟨k, hrows, hk, hkeys⟩ := insertEvents_rows handler lcm events
  rw [hk hok, LedgerCloseMeta.countTransactions, ← List.enum_length, List.take_length] at hrows hkeys
  refine ⟨hrows, fun meta hmeta => ?_⟩
  obtain ⟨i, hi⟩ := List.mem_iff_getElem?.mp hmeta
  exact hkeys (i, meta) (List.mk_mem_enum_iff_getElem?.mpr hi)

end SorobanRpc
