import SorobanRpc.Xdr
import SorobanRpc.Db.Cursor
import SorobanRpc.Db.Event
import SorobanRpc.Db.Ingest
import SorobanRpc.Proof.Insert
import SorobanRpc.Proof.Scan
import SorobanRpc.Proof.Trim
import SorobanRpc.Proof.Invariant
import SorobanRpc.Proof.Query
import SorobanRpc.Proof.Complete
import SorobanRpc.Proof.Migration
import SorobanRpc.Proof.Runs
import SorobanRpc.Proof.Visitor
import SorobanRpc.Proof.Retention
