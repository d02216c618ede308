import ScuDb.Table.TableHeap

/-!
# The transaction manager

`Commit` applies the deletes of the write set, `Abort` undoes the whole write set, both from its
last record to its first.  With logging off no locks are held, so releasing them does nothing.
-/

namespace ScuDb

namespace TransactionManager

/-- `Begin`. -/
def begin : Transaction := {}

/-- One round of the loop of `Commit`. -/
def commitRecord (item : WriteRecord) : PoolM PageData Unit :=
  match item.wtype with
  | .delete => item.table.applyDelete item.rid
  | .insert => pure ()
  | .update => pure ()

/-- `Commit`. -/
def commit (txn : Transaction) : PoolM PageData Transaction := do
  txn.writeSet.forM commitRecord
  return { state := .committed, writeSet := [] }

/-- One round of the loop of `Abort`; the result of `UpdateTuple` is not looked at, and an aborted
transaction records nothing. -/
def abortRecord (txn : Transaction) (item : WriteRecord) : PoolM PageData Unit :=
  match item.wtype with
  | .delete => item.table.rollbackDelete item.rid
  | .insert => item.table.applyDelete item.rid
  | .update => do
    let _ ← item.table.updateTuple item.tuple item.rid txn

/-- `Abort`. -/
def abort (txn : Transaction) : PoolM PageData Transaction := do
  txn.writeSet.forM (abortRecord (txn.setState .aborted))
  return { state := .aborted, writeSet := [] }

end TransactionManager

end ScuDb
