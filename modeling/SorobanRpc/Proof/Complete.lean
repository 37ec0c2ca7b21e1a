import SorobanRpc.Proof.Query
/-!
# What a scan of whole ledgers presents

The gaps of the range scan all lie inside a ledger: `Start.Tx` is compared with the application
orders of every ledger, and `End` only by its ledger. `InsertEvents` numbers transactions from `1`,
so a range that starts at transaction `0` or `1` of its ledger selects every events row of the
ledgers `[Start.Ledger, End.Ledger)` that matches the filter. On such ranges a scan that the visitor
never stops presents every such row whose ledger is stored (`getEvents_presents_every_row`), and
splitting a range at such a cursor splits what the scan presents (`getEvents_split_at_ledger`).

Which ledgers a scan can present is decided by the table alone, so right after a trim every scan
presents only events of the ledgers the trim keeps (`getEvents_after_trim`).
-/

namespace SorobanRpc

variable {ingested : List LedgerCloseMeta} {s : Store} {contractIDs : List (List UInt8)}

/-- On a reachable state a visitor that never stops the scan receives the expansions of all the
database's rows. -/
theorem StoreInv.getEvents_true (hinv : StoreInv ingested s) {cursorRange : CursorRange}
    {rows : List SelectedRow} (hsel : s.Answers cursorRange contractIDs (.ok rows)) :
    getEvents cursorRange contractIDs (fun _ _ => true) (.ok rows) =
      (rows.flatMap rowCalls, .ok ()) :=
  SorobanRpc.getEvents_true cursorRange contractIDs fun row hrow => by
    obtain ⟨-, -, _, _, -, -, -, hok⟩ := hinv.selected (hsel.1.mem_iff.mp hrow)
    exact ⟨_, hok⟩

/-- On a reachable state a visitor that never stops the scan is called with every diagnostic event
of the transaction a row of the database's answer points to. -/
theorem StoreInv.mem_getEvents_of_readRow (hinv : StoreInv ingested s) {cursorRange : CursorRange}
    {rows : List SelectedRow} (hsel : s.Answers cursorRange contractIDs (.ok rows))
    {row : SelectedRow} (hrow : row ∈ s.selectEvents cursorRange contractIDs)
    {ledgerTx : LedgerTransaction} {diagEvents : XdrArray DiagnosticEvent}
    (hread : readRow row = .ok (ledgerTx, diagEvents)) {j : Nat} {event : DiagnosticEvent}
    (hj : diagEvents.toList[j]? = some event) :
    rowCall row ledgerTx j event ∈
      (getEvents cursorRange contractIDs (fun _ _ => true) (.ok rows)).1 := by
  rw [hinv.getEvents_true hsel]
  refine List.mem_flatMap.mpr ⟨row, hsel.1.mem_iff.mpr hrow, ?_⟩
  rw [rowCalls, hread]
  exact mem_eventCalls hj (Nat.zero_add j).symm

/-- A range from transaction `0` or `1` of a ledger selects every row of its ledgers that matches the
filter and has an application order of at least `1`. -/
theorem rowMatches_of_ledger {cursorRange : CursorRange} {e : EventRow}
    (hstart : cursorRange.start.tx.toNat ≤ 1) (hord : 1 ≤ e.applicationOrder.toNat)
    (hledger : cursorRange.start.ledger ≤ e.ledgerSequence ∧
      e.ledgerSequence < cursorRange.end.ledger)
    (hfilter : contractIDs = [] ∨ contractIdIn contractIDs e.contractId = true) :
    rowMatches cursorRange contractIDs e = true := by
  simp only [rowMatches, Bool.and_eq_true, Bool.or_eq_true, decide_eq_true_eq, List.isEmpty_iff]
  exact ⟨⟨⟨hledger.1, uint32_le_iff.mpr (by omega)⟩, hledger.2⟩, hfilter⟩

/-- On a reachable state, a scan from transaction `0` or `1` of a ledger that the visitor never
stops presents every events row of the ledgers `[Start.Ledger, End.Ledger)` that matches the filter
and whose ledger is stored: it presents the event the row describes, under the row's ledger and
application order. -/
theorem getEvents_presents_every_row (hs : Reachable ingested s) {cursorRange : CursorRange}
    {rows : List SelectedRow} (hsel : s.Answers cursorRange contractIDs (.ok rows))
    (hstart : cursorRange.start.tx.toNat ≤ 1) {e : EventRow} (he : e ∈ s.events)
    (hledger : cursorRange.start.ledger ≤ e.ledgerSequence ∧
      e.ledgerSequence < cursorRange.end.ledger)
    (hfilter : contractIDs = [] ∨ contractIdIn contractIDs e.contractId = true)
    {lcm : LedgerCloseMeta} (hstored : s.ledgers e.ledgerSequence = some lcm) :
    ∃ call ∈ (getEvents cursorRange contractIDs (fun _ _ => true) (.ok rows)).1,
      call.cursor.ledger = e.ledgerSequence ∧ call.cursor.tx = e.applicationOrder ∧
        eventRow call.cursor.ledger call.cursor.tx call.event = e := by
  have hinv := hs.storeInv
  obtain ⟨l, hl, hseq, hord, hashes, meta, evs, hopen, hmeta, hknown, -, hevs, ev, hev, hrow⟩ :=
    hinv.events e he
  obtain ⟨hmem, hlseq⟩ := hinv.ledgers _ _ hstored
  obtain rfl : l = lcm := hinv.ledger_eq hl hmem (hseq.symm.trans hlseq.symm)
  have hselected : (⟨e.ledgerSequence, e.applicationOrder, l⟩ : SelectedRow) ∈
      s.selectEvents cursorRange contractIDs :=
    mem_selectEvents.mpr ⟨e, he, rowMatches_of_ledger hstart hord hledger hfilter, hstored, rfl, rfl⟩
  obtain ⟨j, hj⟩ := List.mem_iff_getElem?.mp hev
  exact ⟨_, hinv.mem_getEvents_of_readRow hsel hselected
    (readRow_eq_ok hopen hord hmeta hknown hevs) hj, hseq.symm, rfl, hseq ▸ hrow⟩

theorem getEvents_presents_every_row_eventA :
    ∃ call ∈ (getEvents wholeRange [] (fun _ _ => true)
        (.ok (twoContractStore.selectEvents wholeRange []))).1,
      call.cursor.ledger = (eventRow 2 1 eventA).ledgerSequence ∧
        call.cursor.tx = (eventRow 2 1 eventA).applicationOrder ∧
        eventRow call.cursor.ledger call.cursor.tx call.event = eventRow 2 1 eventA :=
  getEvents_presents_every_row reachable_twoContractStore
    (show twoContractStore.Answers wholeRange [] (.ok (twoContractStore.selectEvents wholeRange []))
      from ⟨.refl _, by decide⟩)
    (by decide) (by decide) (by decide) (.inl rfl)
    (rfl : twoContractStore.ledgers (eventRow 2 1 eventA).ledgerSequence = some twoContractLedger)

/-! ### Splitting a range at a ledger boundary -/

/-- A filter splits into the filters of two predicates that split its own. -/
theorem filter_perm_append {α : Type} {p q r : α → Bool} {l : List α}
    (h : ∀ x ∈ l, p x = (q x || r x) ∧ (q x && r x) = false) :
    (l.filter p).Perm (l.filter q ++ l.filter r) := by
  induction l with
  | nil => simp
  | cons x l ih =>
    obtain ⟨hp, hqr⟩ := h x (List.mem_cons_self _ _)
    have ih := ih fun y hy => h y (List.mem_cons_of_mem _ hy)
    cases hq : q x <;> cases hr : r x <;> simp_all [List.filter_cons]
    exact (ih.cons x).trans List.perm_middle.symm

/-- The query's rows split as its `WHERE` clause does. -/
theorem selectEvents_perm_append {r r₁ r₂ : CursorRange}
    (h : ∀ e ∈ s.events, rowMatches r contractIDs e =
      (rowMatches r₁ contractIDs e || rowMatches r₂ contractIDs e) ∧
        (rowMatches r₁ contractIDs e && rowMatches r₂ contractIDs e) = false) :
    (s.selectEvents r contractIDs).Perm
      (s.selectEvents r₁ contractIDs ++ s.selectEvents r₂ contractIDs) := by
  simp only [Store.selectEvents, ← List.filterMap_filter, ← List.filterMap_append]
  exact (filter_perm_append h).filterMap _

/-- Between `[S, M)` and `[M, E)` the rows of `[S, E)` from transaction `1` on split as their
ledgers fall below `M.Ledger` or not. -/
theorem rowMatches_split {S M E : Cursor} {e : EventRow} (hS : S.tx.toNat ≤ 1)
    (hM : M.tx.toNat ≤ 1) (hSM : S.ledger ≤ M.ledger) (hME : M.ledger ≤ E.ledger)
    (hord : 1 ≤ e.applicationOrder.toNat) :
    rowMatches ⟨S, E⟩ contractIDs e =
        (rowMatches ⟨S, M⟩ contractIDs e || rowMatches ⟨M, E⟩ contractIDs e) ∧
      (rowMatches ⟨S, M⟩ contractIDs e && rowMatches ⟨M, E⟩ contractIDs e) = false := by
  have hSM : S.ledger.toNat ≤ M.ledger.toNat := hSM
  have hME : M.ledger.toNat ≤ E.ledger.toNat := hME
  simp only [rowMatches, uint32_le_iff, uint32_lt_iff]
  cases contractIDs.isEmpty || contractIdIn contractIDs e.contractId
  · simp
  · refine ⟨Bool.eq_iff_iff.mpr ?_, Bool.eq_false_iff.mpr ?_⟩ <;>
      simp only [ne_eq, Bool.or_eq_true, Bool.and_eq_true, decide_eq_true_eq, Bool.and_true] <;>
      omega

/-- On a reachable state, splitting a range at a cursor `M` at transaction `0` or `1` of its ledger
splits what a scan that the visitor never stops presents: the calls of `[S, E)` are those of
`[S, M)` and of `[M, E)` together, when `S` too starts at transaction `0` or `1` of its ledger. -/
theorem getEvents_split_at_ledger (hs : Reachable ingested s) {S M E : Cursor}
    (hS : S.tx.toNat ≤ 1) (hM : M.tx.toNat ≤ 1) (hSM : S.ledger ≤ M.ledger)
    (hME : M.ledger ≤ E.ledger) {rows rowsLow rowsHigh : List SelectedRow}
    (hsel : s.Answers ⟨S, E⟩ contractIDs (.ok rows))
    (hlow : s.Answers ⟨S, M⟩ contractIDs (.ok rowsLow))
    (hhigh : s.Answers ⟨M, E⟩ contractIDs (.ok rowsHigh)) :
    (getEvents ⟨S, E⟩ contractIDs (fun _ _ => true) (.ok rows)).1.Perm
      ((getEvents ⟨S, M⟩ contractIDs (fun _ _ => true) (.ok rowsLow)).1 ++
        (getEvents ⟨M, E⟩ contractIDs (fun _ _ => true) (.ok rowsHigh)).1) := by
  have hinv := hs.storeInv
  rw [hinv.getEvents_true hsel, hinv.getEvents_true hlow, hinv.getEvents_true hhigh,
    ← List.flatMap_append]
  refine List.Perm.flatMap_right _ (hsel.1.trans ((selectEvents_perm_append fun e he => ?_).trans
    (hlow.1.append hhigh.1).symm))
  obtain ⟨-, -, -, hord, -⟩ := hinv.events e he
  exact rowMatches_split hS hM hSM hME hord

theorem getEvents_split_at_ledger_ten :
    (getEvents ⟨⟨0, 0, 0⟩, ⟨30, 0, 0⟩⟩ [] (fun _ _ => true)
        (.ok (twoLedgerStore.selectEvents ⟨⟨0, 0, 0⟩, ⟨30, 0, 0⟩⟩ []))).1.Perm
      ((getEvents ⟨⟨0, 0, 0⟩, ⟨10, 0, 0⟩⟩ [] (fun _ _ => true)
        (.ok (twoLedgerStore.selectEvents ⟨⟨0, 0, 0⟩, ⟨10, 0, 0⟩⟩ []))).1 ++
      (getEvents ⟨⟨10, 0, 0⟩, ⟨30, 0, 0⟩⟩ [] (fun _ _ => true)
        (.ok (twoLedgerStore.selectEvents ⟨⟨10, 0, 0⟩, ⟨30, 0, 0⟩⟩ []))).1) :=
  getEvents_split_at_ledger reachable_twoLedgerStore (by decide) (by decide) (by decide)
    (by decide) ⟨.refl _, by decide⟩ ⟨.refl _, by decide⟩ ⟨.refl _, by decide⟩

/-! ### After a trim -/

/-- On a state a trim below the top of the `uint32` range has just left, every scan presents only
events of the ledgers the trim keeps, whatever the range, the filter, the visitor and the
database's answer. -/
theorem getEvents_after_trim (hs : Reachable ingested s) {cache : StmtCache}
    (hexec : cache.exec 0 = none) {latestLedgerSeq retentionWindow : UInt32}
    (hlatest : latestLedgerSeq.toNat + 1 < 2 ^ 32) {cursorRange : CursorRange} {f : ScanFunction}
    {selected : Except String (List SelectedRow)}
    (hsel : (s.trim ⟨some cache⟩ latestLedgerSeq retentionWindow).Answers cursorRange contractIDs
      selected)
    {call : ScanCall} (h : call ∈ (getEvents cursorRange contractIDs f selected).1) :
    latestLedgerSeq.toNat < call.cursor.ledger.toNat + retentionWindow.toNat := by
  obtain ⟨row, hrow, hledger, -⟩ := mem_getEvents_selected hsel h
  obtain ⟨e, he, -, -, hseq, -⟩ :=
    (hs.trim ⟨some cache⟩ latestLedgerSeq retentionWindow).storeInv.selected_event hrow
  have he : e ∈ ((⟨some cache⟩ : EventHandler).trimEvents latestLedgerSeq retentionWindow
      s.events).1 := he
  rw [trimEvents_eq_filter rfl hexec hlatest, List.mem_filter, decide_eq_true_eq] at he
  rw [hledger, hseq]
  exact he.2

def callAtTwenty : ScanCall := ⟨eventA, ⟨20, 1, 0⟩, 150, ⟨List.replicate 32 1, rfl⟩⟩

theorem getEvents_after_trim_callAtTwenty :
    (20 : UInt32).toNat < callAtTwenty.cursor.ledger.toNat + (5 : UInt32).toNat :=
  getEvents_after_trim reachable_twoLedgerStore (rfl : (⟨fun _ => none⟩ : StmtCache).exec 0 = none)
    (by decide)
    (show (twoLedgerStore.trim ⟨some ⟨fun _ => none⟩⟩ 20 5).Answers twoLedgerRange []
        (.ok ((twoLedgerStore.trim ⟨some ⟨fun _ => none⟩⟩ 20 5).selectEvents twoLedgerRange [])) from
      ⟨.refl _, by decide⟩)
    (by decide : callAtTwenty ∈ (getEvents twoLedgerRange [] (fun _ _ => true)
      (.ok ((twoLedgerStore.trim ⟨some ⟨fun _ => none⟩⟩ 20 5).selectEvents twoLedgerRange []))).1)

end SorobanRpc
