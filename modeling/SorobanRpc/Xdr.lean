import Mathlib.Data.List.Basic
import Mathlib.Algebra.Group.Nat.Basic
/-!
# The ledger records the event store reads

The event handler reads ledger-close-meta records through the ingest library's transaction reader
and never looks at the XDR beyond a handful of accessors. This module keeps exactly those: a
ledger's sequence and close time, the hash and the success bit of each transaction's result, the
diagnostic events `GetDiagnosticEvents` finds in its meta, and the hashes the reader computes for
the envelopes of the transaction set under the network passphrase.

The codec itself is external. What the model keeps of it is that it is a function of the record:
the reader finds the same transaction at the same position every time it is asked, and an XDR
variable-length array carries its length as a `uint32`, so every decoded array has fewer than
`2^32` elements. The second fact is what makes the handler's `uint32(...)` casts exact.
-/

namespace SorobanRpc

instance instDecidableEqExcept {ε α : Type} [DecidableEq ε] [DecidableEq α] :
    DecidableEq (Except ε α)
  | .error x, .error y =>
    if h : x = y then isTrue (h ▸ rfl) else isFalse fun e => h (by cases e; rfl)
  | .ok x, .ok y => if h : x = y then isTrue (h ▸ rfl) else isFalse fun e => h (by cases e; rfl)
  | .error _, .ok _ => isFalse fun e => by cases e
  | .ok _, .error _ => isFalse fun e => by cases e

structure Hash where
  bytes : List UInt8
  length_bytes : bytes.length = 32
deriving DecidableEq

/-- An XDR variable-length array `T<>`: its length travels as a `uint32`. -/
structure XdrArray (α : Type) where
  toList : List α
  length_lt : toList.length < 2 ^ 32
deriving DecidableEq

inductive ContractEventType
  | system
  | contract
  | diagnostic
deriving DecidableEq

/-- The enum's XDR value, `int(e.Event.Type)`. -/
def ContractEventType.toInt : ContractEventType → Int
  | .system => 0
  | .contract => 1
  | .diagnostic => 2

/-- `xdr.ContractEvent`; `body` stands for its topics and data, which the handler passes on
without reading. -/
structure ContractEvent where
  contractId : Option Hash
  type : ContractEventType
  body : List Nat
deriving DecidableEq

structure DiagnosticEvent where
  event : ContractEvent
deriving DecidableEq

/-- `xdr.TransactionResultPair`: the transaction's hash and whether its result code is a
success, `Successful()`. -/
structure TransactionResultPair where
  transactionHash : Hash
  successful : Bool
deriving DecidableEq

/-- `xdr.TransactionMeta`, by the answer `GetDiagnosticEvents` gives for it: the events of its
Soroban meta, or an error for a meta version the library does not support. -/
structure TransactionMeta where
  diagnosticEvents : Except String (XdrArray DiagnosticEvent)
deriving DecidableEq

structure TransactionResultMeta where
  result : TransactionResultPair
  txApplyProcessing : TransactionMeta
deriving DecidableEq

/-- An envelope of the transaction set, by its hash under the network passphrase
(`network.HashTransactionInEnvelope`), or the error hashing it gives. The passphrase is fixed at
startup, so the hash is a function of the envelope. -/
structure TransactionEnvelope where
  hash : Except String Hash
deriving DecidableEq

structure LedgerCloseMeta where
  ledgerSequence : UInt32
  ledgerCloseTime : Int
  txSet : List TransactionEnvelope
  txProcessing : XdrArray TransactionResultMeta
deriving DecidableEq

def LedgerCloseMeta.countTransactions (lcm : LedgerCloseMeta) : Nat :=
  lcm.txProcessing.toList.length

/-! ### The ingest library's transaction reader -/

/-- `ingest.LedgerTransaction`: a transaction with its 1-based position in the ledger. -/
structure LedgerTransaction where
  index : UInt32
  result : TransactionResultPair
  unsafeMeta : TransactionMeta
deriving DecidableEq

def LedgerTransaction.getDiagnosticEvents (tx : LedgerTransaction) :
    Except String (XdrArray DiagnosticEvent) :=
  tx.unsafeMeta.diagnosticEvents

/-- `ingest.LedgerTransactionReader`: the record, the envelope hashes it found, and the position
of the next `Read`, which `Seek` keeps in range. -/
structure LedgerTransactionReader where
  lcm : LedgerCloseMeta
  envelopesByHash : List Hash
  readIdx : Nat

/-- What `Read` and `Seek` fail with: `io.EOF` past either end of the ledger's transactions, or a
result whose hash no envelope of the set has. -/
inductive ReadError
  | eof
  | unknownTxHash (hash : Hash)
deriving DecidableEq

/-- `ingest.NewLedgerTransactionReaderFromLedgerCloseMeta`: hashes every envelope of the
transaction set and fails on the first one it cannot hash. -/
def newLedgerTransactionReaderFromLedgerCloseMeta (lcm : LedgerCloseMeta) :
    Except String LedgerTransactionReader :=
  (lcm.txSet.mapM TransactionEnvelope.hash).map fun hashes => ⟨lcm, hashes, 0⟩

/-- The transaction the reader yields at position `i`, whose result is `meta`: it is known only
when an envelope of the set has its hash. -/
def readTransaction (envelopesByHash : List Hash) (i : Nat) (meta : TransactionResultMeta) :
    Except ReadError LedgerTransaction :=
  if meta.result.transactionHash ∈ envelopesByHash then
    .ok ⟨UInt32.ofNat (i + 1), meta.result, meta.txApplyProcessing⟩
  else .error (.unknownTxHash meta.result.transactionHash)

def LedgerTransactionReader.read (reader : LedgerTransactionReader) :
    Except ReadError (LedgerTransaction × LedgerTransactionReader) :=
  match reader.lcm.txProcessing.toList[reader.readIdx]? with
  | none => .error .eof
  | some meta =>
    (readTransaction reader.envelopesByHash reader.readIdx meta).map fun tx =>
      (tx, { reader with readIdx := reader.readIdx + 1 })

/-- `reader.Seek(index)`: `io.EOF` for an index outside `[0, CountTransactions())`. -/
def LedgerTransactionReader.seek (reader : LedgerTransactionReader) (index : Int) :
    Except ReadError LedgerTransactionReader :=
  if index < 0 ∨ index ≥ reader.lcm.countTransactions then .error .eof
  else .ok { reader with readIdx := index.toNat }

theorem LedgerTransactionReader.read_eq {reader : LedgerTransactionReader}
    {meta : TransactionResultMeta} (hmeta : reader.lcm.txProcessing.toList[reader.readIdx]? = some meta) :
    reader.read = (readTransaction reader.envelopesByHash reader.readIdx meta).map fun tx =>
      (tx, { reader with readIdx := reader.readIdx + 1 }) := by
  rw [LedgerTransactionReader.read, hmeta]

theorem LedgerTransactionReader.seek_eq_ok {reader : LedgerTransactionReader} {index : Nat}
    (hindex : index < reader.lcm.countTransactions) :
    reader.seek index = .ok { reader with readIdx := index } := by
  rw [LedgerTransactionReader.seek, if_neg (by omega), Int.toNat_ofNat]

theorem newLedgerTransactionReader_hashes {lcm : LedgerCloseMeta} {reader : LedgerTransactionReader}
    (h : newLedgerTransactionReaderFromLedgerCloseMeta lcm = .ok reader) :
    lcm.txSet.mapM TransactionEnvelope.hash = .ok reader.envelopesByHash := by
  unfold newLedgerTransactionReaderFromLedgerCloseMeta at h
  cases hmap : lcm.txSet.mapM TransactionEnvelope.hash with
  | error err =>
    rw [hmap] at h
    cases h
  | ok hashes =>
    rw [hmap] at h
    cases h
    rfl

end SorobanRpc
