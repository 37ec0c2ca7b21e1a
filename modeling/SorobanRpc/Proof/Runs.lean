import SorobanRpc.Proof.Complete
import SorobanRpc.Proof.Migration
/-!
# The rows of a ledger over runs of the store

Every run of the store keeps the rows of each ledger in one shape: in order, the rows of the
ledger's first `k` transactions, for some `k` (`LedgerRows`). `InsertEvents` writes a ledger's rows
one transaction at a time after the rows already there, and each sequence is ingested once; a trim
deletes the rows of a ledger all together or not at all; deleting a ledger's record leaves the
rows. So across any interleaving of ingests, trims and deletions the rows of a ledger are never cut
inside a transaction, reordered, repeated or mixed with another ledger's (`reachable_ledgerRows`).

A ledger ingested by an `InsertEvents` that returns `nil` keeps its record and its rows through every
later run of ingests of other ledgers, trims whose window still holds it, and deletions of other
ledgers' records (`KeepsLedger`). Along such runs it keeps exactly its rows
(`ingested_rows_kept`), and every scan of whole ledgers that includes it presents each diagnostic
event of each of its successful transactions under the event's own cursor
(`ingested_event_served`).
-/

namespace SorobanRpc

variable {ingested : List LedgerCloseMeta} {s : Store}

/-! ### The rows of each ledger -/

/-- The rows of the first `k` transactions of the ledger ingested under `seq`, in apply order;
none when no ledger was. -/
def ingestedPrefixRows (ingested : List LedgerCloseMeta) (seq : UInt32) (k : Nat) :
    List EventRow :=
  match ingestedLedger ingested seq with
  | some lcm => (lcm.txProcessing.toList.enum.take k).flatMap (txEventRows seq)
  | none => []

/-- The rows of every ledger a table holds are those of the ledger's first `k` transactions, in
apply order, for some `k`. -/
def LedgerRows (ingested : List LedgerCloseMeta) (s : Store) : Prop :=
  ∀ seq, ∃ k, s.events.filter (fun e => e.ledgerSequence = seq) = ingestedPrefixRows ingested seq k

theorem ingestedPrefixRows_zero (ingested : List LedgerCloseMeta) (seq : UInt32) :
    ingestedPrefixRows ingested seq 0 = [] := by
  unfold ingestedPrefixRows
  split <;> rfl

theorem ledgerSequence_of_mem_txEventRows {seq : UInt32} {p : Nat × TransactionResultMeta}
    {e : EventRow} (he : e ∈ txEventRows seq p) : e.ledgerSequence = seq := by
  obtain ⟨-, -, -, ev, -, rfl⟩ := mem_txEventRows.mp he
  rfl

/-- The rows written for a ledger all carry its sequence. -/
theorem filter_flatMap_txEventRows (seq seq' : UInt32) (ps : List (Nat × TransactionResultMeta)) :
    (ps.flatMap (txEventRows seq)).filter (fun e => e.ledgerSequence = seq') =
      if seq = seq' then ps.flatMap (txEventRows seq) else [] := by
  split
  · rename_i hseq
    refine List.filter_eq_self.mpr fun e he => ?_
    obtain ⟨p, -, hp⟩ := List.mem_flatMap.mp he
    simp [ledgerSequence_of_mem_txEventRows hp, hseq]
  · rename_i hseq
    refine List.filter_eq_nil_iff.mpr fun e he => ?_
    obtain ⟨p, -, hp⟩ := List.mem_flatMap.mp he
    simp [ledgerSequence_of_mem_txEventRows hp, hseq]

namespace LedgerRows

theorem empty : LedgerRows [] Store.empty :=
  fun seq => ⟨0, by simp [Store.empty, ingestedPrefixRows_zero]⟩

theorem ingest (hrows : LedgerRows ingested s) {lcm : LedgerCloseMeta}
    (hnew : lcm.ledgerSequence ∉ ingested.map LedgerCloseMeta.ledgerSequence)
    (handler : EventHandler) : LedgerRows (lcm :: ingested) (s.ingest handler lcm) := by
  intro seq
  obtain ⟨k, hwritten, -, -⟩ := insertEvents_rows handler lcm s.events
  obtain ⟨m, hm⟩ := hrows seq
  rw [Store.ingest_events, hwritten, List.filter_append, hm, filter_flatMap_txEventRows]
  by_cases hseq : lcm.ledgerSequence = seq
  · subst hseq
    refine ⟨k, ?_⟩
    simp [ingestedPrefixRows, ingestedLedger_cons, ingestedLedger_eq_none hnew]
  · exact ⟨m, by simp [ingestedPrefixRows, ingestedLedger_cons, hseq]⟩

theorem trim (hrows : LedgerRows ingested s) (handler : EventHandler)
    (latestLedgerSeq retentionWindow : UInt32) :
    LedgerRows ingested (s.trim handler latestLedgerSeq retentionWindow) := by
  intro seq
  obtain ⟨keep, hkeep⟩ := trimEvents_filter handler latestLedgerSeq retentionWindow
  obtain ⟨m, hm⟩ := hrows seq
  rw [Store.trim_events, hkeep, List.filter_filter]
  by_cases hk : keep seq = true
  · refine ⟨m, hm ▸ List.filter_congr fun e _ => ?_⟩
    by_cases he : e.ledgerSequence = seq <;> simp [he, hk]
  · refine ⟨0, ?_⟩
    rw [ingestedPrefixRows_zero, List.filter_eq_nil_iff]
    intro e _
    by_cases he : e.ledgerSequence = seq <;> simp [he, hk]

theorem deleteLedger (hrows : LedgerRows ingested s) (seq : UInt32) :
    LedgerRows ingested (s.deleteLedger seq) :=
  hrows

end LedgerRows

/-- On every reachable state the rows of each ledger are, in order, the rows of the first `k`
transactions of the ledger ingested under its sequence, for some `k`, and a sequence no ledger was
ingested under has none. -/
theorem reachable_ledgerRows (hs : Reachable ingested s) : LedgerRows ingested s := by
  induction hs with
  | empty => exact LedgerRows.empty
  | ingest handler lcm _ hnew ih => exact ih.ingest hnew handler
  | trim handler latestLedgerSeq retentionWindow _ ih => exact ih.trim handler _ _
  | deleteLedger seq _ ih => exact ih.deleteLedger seq

theorem reachable_ledgerRows_twoContractStore : LedgerRows [twoContractLedger] twoContractStore :=
  reachable_ledgerRows reachable_twoContractStore

/-! ### Runs that keep a ledger -/

/-- The runs from the state `s₀`, with the ledgers `ingested₀` ingested, after which the ledger
`seq` keeps its record and its rows: ingests of other ledgers, trims whose window still holds
`seq`, and deletions of other ledgers' records. -/
inductive KeepsLedger (seq : UInt32) (ingested₀ : List LedgerCloseMeta) (s₀ : Store) :
    List LedgerCloseMeta → Store → Prop
  | refl : KeepsLedger seq ingested₀ s₀ ingested₀ s₀
  | ingest {ingested : List LedgerCloseMeta} {s : Store} (handler : EventHandler)
      (lcm : LedgerCloseMeta) : KeepsLedger seq ingested₀ s₀ ingested s →
      lcm.ledgerSequence ∉ ingested.map LedgerCloseMeta.ledgerSequence →
      KeepsLedger seq ingested₀ s₀ (lcm :: ingested) (s.ingest handler lcm)
  | trim {ingested : List LedgerCloseMeta} {s : Store} (handler : EventHandler)
      (latestLedgerSeq retentionWindow : UInt32) : KeepsLedger seq ingested₀ s₀ ingested s →
      latestLedgerSeq.toNat < seq.toNat + retentionWindow.toNat →
      KeepsLedger seq ingested₀ s₀ ingested (s.trim handler latestLedgerSeq retentionWindow)
  | deleteLedger {ingested : List LedgerCloseMeta} {s : Store} (seq' : UInt32) :
      KeepsLedger seq ingested₀ s₀ ingested s → seq' ≠ seq →
      KeepsLedger seq ingested₀ s₀ ingested (s.deleteLedger seq')

namespace KeepsLedger

variable {seq : UInt32} {ingested₀ : List LedgerCloseMeta} {s₀ : Store}

theorem reachable (h₀ : Reachable ingested₀ s₀) (hrun : KeepsLedger seq ingested₀ s₀ ingested s) :
    Reachable ingested s := by
  induction hrun with
  | refl => exact h₀
  | ingest handler lcm _ hnew ih => exact .ingest handler lcm ih hnew
  | trim handler latestLedgerSeq retentionWindow _ _ ih => exact .trim handler _ _ ih
  | deleteLedger seq' _ _ ih => exact .deleteLedger seq' ih

/-- Along the run the ledger `seq` stays ingested and keeps its record and its rows. -/
theorem keeps (hrun : KeepsLedger seq ingested₀ s₀ ingested s)
    (hseq : seq ∈ ingested₀.map LedgerCloseMeta.ledgerSequence) :
    seq ∈ ingested.map LedgerCloseMeta.ledgerSequence ∧ s.ledgers seq = s₀.ledgers seq ∧
      s.events.filter (fun e => e.ledgerSequence = seq) =
        s₀.events.filter (fun e => e.ledgerSequence = seq) := by
  induction hrun with
  | refl => exact ⟨hseq, rfl, rfl⟩
  | @ingest ingested s handler lcm _ hnew ih =>
    obtain ⟨hmem, hledger, hrows⟩ := ih
    have hother : lcm.ledgerSequence ≠ seq := fun h => hnew (h ▸ hmem)
    obtain ⟨k, hwritten, -, -⟩ := insertEvents_rows handler lcm s.events
    refine ⟨List.mem_cons_of_mem _ hmem, ?_, ?_⟩
    · simp [Store.ingest, Ne.symm hother, hledger]
    · rw [Store.ingest_events, hwritten, List.filter_append, filter_flatMap_txEventRows,
        if_neg hother, List.append_nil, hrows]
  | @trim ingested s handler latestLedgerSeq retentionWindow _ hwindow ih =>
    obtain ⟨hmem, hledger, hrows⟩ := ih
    refine ⟨hmem, hledger, ?_⟩
    obtain ⟨keep, hkeep⟩ := trimEvents_filter handler latestLedgerSeq retentionWindow
    rw [← hrows, Store.trim_events, hkeep, List.filter_filter]
    refine List.filter_congr fun e he => ?_
    by_cases hes : e.ledgerSequence = seq
    · have hkept := trimEvents_keeps_ledger handler he (hes ▸ hwindow)
      rw [hkeep, List.mem_filter, hes] at hkept
      simp [hes, hkept.2]
    · simp [hes]
  | deleteLedger seq' _ hother ih =>
    obtain ⟨hmem, hledger, hrows⟩ := ih
    exact ⟨hmem, by simp [Store.deleteLedger, Ne.symm hother, hledger], hrows⟩

/-- After an `InsertEvents` that returns `nil`, a run that keeps the ledger keeps each of its rows. -/
theorem mem_of_ledgerEventRows {lcm : LedgerCloseMeta} {handler : EventHandler}
    (hrun : KeepsLedger lcm.ledgerSequence (lcm :: ingested₀) (s₀.ingest handler lcm) ingested s)
    (hok : (handler.insertEvents lcm s₀.events).2 = .ok ()) {e : EventRow}
    (he : e ∈ ledgerEventRows lcm) : e ∈ s.events := by
  have hwritten : e ∈ (s₀.ingest handler lcm).events.filter
      fun e => e.ledgerSequence = lcm.ledgerSequence := by
    obtain ⟨p, -, hp⟩ := List.mem_flatMap.mp he
    rw [Store.ingest_events, (insertEvents_ok_read hok).1, List.mem_filter]
    exact ⟨List.mem_append_right _ he, by simp [ledgerSequence_of_mem_txEventRows hp]⟩
  rw [← (hrun.keeps (List.mem_map_of_mem _ (List.mem_cons_self _ _))).2.2] at hwritten
  exact (List.mem_filter.mp hwritten).1

end KeepsLedger

/-! ### A ledger ingested in full -/

/-- The application order of the transaction at position `i` of a ledger is `i + 1`. -/
theorem applicationOrder_toNat {lcm : LedgerCloseMeta} {i : Nat} {meta : TransactionResultMeta}
    (hmeta : lcm.txProcessing.toList[i]? = some meta) : (UInt32.ofNat (i + 1)).toNat = i + 1 := by
  have hi := (List.getElem?_eq_some_iff.mp hmeta).1
  have := lcm.txProcessing.length_lt
  rw [uint32_toNat_ofNat, Nat.mod_eq_of_lt (by omega)]

/-- A reachable state holds no rows of a sequence no ledger was ingested under. -/
theorem StoreInv.filter_not_ingested (hinv : StoreInv ingested s) {seq : UInt32}
    (hnew : seq ∉ ingested.map LedgerCloseMeta.ledgerSequence) :
    s.events.filter (fun e => e.ledgerSequence = seq) = [] := by
  refine List.filter_eq_nil_iff.mpr fun e he => ?_
  obtain ⟨lcm, hl, hsound⟩ := hinv.events e he
  simp only [decide_eq_true_eq]
  rintro rfl
  exact hnew (by rw [hsound.1]; exact List.mem_map_of_mem _ hl)

/-- After a ledger is ingested by an `InsertEvents` that returns `nil`, every later state of a run
that keeps the ledger holds exactly the ledger's rows under its sequence, in apply order. -/
theorem ingested_rows_kept (hs : Reachable ingested s) {lcm : LedgerCloseMeta}
    (hnew : lcm.ledgerSequence ∉ ingested.map LedgerCloseMeta.ledgerSequence)
    {handler : EventHandler} (hok : (handler.insertEvents lcm s.events).2 = .ok ())
    {ingested' : List LedgerCloseMeta} {s' : Store}
    (hrun : KeepsLedger lcm.ledgerSequence (lcm :: ingested) (s.ingest handler lcm) ingested' s') :
    s'.events.filter (fun e => e.ledgerSequence = lcm.ledgerSequence) = ledgerEventRows lcm := by
  rw [(hrun.keeps (List.mem_map_of_mem _ (List.mem_cons_self _ _))).2.2, Store.ingest_events,
    (insertEvents_ok_read hok).1, List.filter_append, hs.storeInv.filter_not_ingested hnew,
    ledgerEventRows, filter_flatMap_txEventRows, if_pos rfl, List.nil_append]

/-- The tables after ledgers `2`, `20` and `21` are ingested, once the trim at ledger `21` with a
window of `5` has deleted ledger `2`'s rows. -/
def afterTrimStore : Store :=
  (twoLedgerStore.ingest ⟨some ⟨fun _ => none⟩⟩ (twoContractLedgerAt 21)).trim ⟨some ⟨fun _ => none⟩⟩
    21 5

theorem ingested_rows_kept_ledgerTwenty :
    (afterTrimStore.events.filter fun e =>
      e.ledgerSequence = (twoContractLedgerAt 20).ledgerSequence) =
      ledgerEventRows (twoContractLedgerAt 20) :=
  ingested_rows_kept reachable_twoContractStore (by decide)
    (by decide : ((⟨some ⟨fun _ => none⟩⟩ : EventHandler).insertEvents (twoContractLedgerAt 20)
      twoContractStore.events).2 = .ok ())
    (show KeepsLedger _ _ _ _ afterTrimStore from .trim _ 21 5 (.ingest _ _ .refl (by decide))
      (by decide))

/-- After a ledger is ingested by an `InsertEvents` that returns `nil`, in every later state of a run
that keeps the ledger, a scan from transaction `0` or `1` of a ledger up to `End.Ledger` that
includes it, whose visitor never stops, presents every diagnostic event of every successful
transaction of the ledger that has an event of the filter: the `j`-th event of the transaction at
position `i` under the cursor `(ledger, i + 1, j)`, with the ledger's close time and the
transaction's hash. -/
theorem ingested_event_served (hs : Reachable ingested s) {lcm : LedgerCloseMeta}
    (hnew : lcm.ledgerSequence ∉ ingested.map LedgerCloseMeta.ledgerSequence)
    {handler : EventHandler} (hok : (handler.insertEvents lcm s.events).2 = .ok ())
    {ingested' : List LedgerCloseMeta} {s' : Store}
    (hrun : KeepsLedger lcm.ledgerSequence (lcm :: ingested) (s.ingest handler lcm) ingested' s')
    {cursorRange : CursorRange} {contractIDs : List (List UInt8)} {rows : List SelectedRow}
    (hsel : s'.Answers cursorRange contractIDs (.ok rows)) (hstart : cursorRange.start.tx.toNat ≤ 1)
    (hledger : cursorRange.start.ledger ≤ lcm.ledgerSequence ∧
      lcm.ledgerSequence < cursorRange.end.ledger)
    {i : Nat} {meta : TransactionResultMeta} (hmeta : lcm.txProcessing.toList[i]? = some meta)
    (hsucc : meta.result.successful = true) {evs : XdrArray DiagnosticEvent}
    (hevs : meta.txApplyProcessing.diagnosticEvents = .ok evs)
    (hfilter : contractIDs = [] ∨
      ∃ ev ∈ evs.toList, contractIdIn contractIDs (ev.event.contractId.map Hash.bytes) = true)
    {j : Nat} {ev : DiagnosticEvent} (hev : evs.toList[j]? = some ev) :
    ⟨ev, ⟨lcm.ledgerSequence, UInt32.ofNat (i + 1), UInt32.ofNat j⟩, lcm.ledgerCloseTime,
      meta.result.transactionHash⟩ ∈
      (getEvents cursorRange contractIDs (fun _ _ => true) (.ok rows)).1 := by
  obtain ⟨-, hstored, -⟩ := hrun.keeps (List.mem_map_of_mem _ (List.mem_cons_self _ _))
  obtain ⟨ev₀, hev₀, hmatch₀⟩ : ∃ ev₀ ∈ evs.toList, contractIDs = [] ∨
      contractIdIn contractIDs (ev₀.event.contractId.map Hash.bytes) = true := by
    rcases hfilter with hids | ⟨ev', hev', hin⟩
    · exact ⟨ev, List.getElem?_mem hev, .inl hids⟩
    · exact ⟨ev', hev', .inr hin⟩
  have hord := applicationOrder_toNat hmeta
  have hrow : eventRow lcm.ledgerSequence (UInt32.ofNat (i + 1)) ev₀ ∈ s'.events :=
    hrun.mem_of_ledgerEventRows hok (List.mem_flatMap.mpr ⟨(i, meta),
      List.mk_mem_enum_iff_getElem?.mpr hmeta, mem_txEventRows.mpr ⟨hsucc, evs, hevs, ev₀, hev₀, rfl⟩⟩)
  have hselected : (⟨lcm.ledgerSequence, UInt32.ofNat (i + 1), lcm⟩ : SelectedRow) ∈
      s'.selectEvents cursorRange contractIDs :=
    mem_selectEvents.mpr ⟨_, hrow, rowMatches_of_ledger hstart (by simp only [eventRow, hord]; omega)
      hledger hmatch₀, hstored.trans (by simp [Store.ingest]), rfl, rfl⟩
  obtain ⟨hashes, hopen, hknown⟩ := (insertEvents_ok_read hok).2 meta (List.getElem?_mem hmeta)
  have hat : lcm.txProcessing.toList[(UInt32.ofNat (i + 1)).toNat - 1]? = some meta := by
    rwa [hord, Nat.add_sub_cancel]
  exact (hrun.reachable (.ingest handler lcm hs hnew)).storeInv.mem_getEvents_of_readRow hsel
    hselected (readRow_eq_ok hopen (by simp only [hord]; omega) hat hknown hevs) hev

theorem ingested_event_served_ledgerTwenty :
    ⟨eventB, ⟨20, UInt32.ofNat (0 + 1), UInt32.ofNat 1⟩, 150, ⟨List.replicate 32 1, rfl⟩⟩ ∈
      (getEvents twoLedgerRange [hashA.bytes] (fun _ _ => true)
        (.ok (afterTrimStore.selectEvents twoLedgerRange [hashA.bytes]))).1 := by
  have hserved := ingested_event_served reachable_twoContractStore (by decide)
    (by decide : ((⟨some ⟨fun _ => none⟩⟩ : EventHandler).insertEvents (twoContractLedgerAt 20)
      twoContractStore.events).2 = .ok ())
    (show KeepsLedger _ _ _ _ afterTrimStore from .trim _ 21 5 (.ingest _ _ .refl (by decide))
      (by decide))
    (show afterTrimStore.Answers twoLedgerRange [hashA.bytes]
        (.ok (afterTrimStore.selectEvents twoLedgerRange [hashA.bytes])) from ⟨.refl _, by decide⟩)
    (by decide) (by decide) (rfl : (twoContractLedgerAt 20).txProcessing.toList[0]? = _) rfl rfl
    (.inr ⟨eventA, List.mem_cons_self _ _, rfl⟩)
    (rfl : [eventA, eventB][1]? = _)
  exact hserved

end SorobanRpc
