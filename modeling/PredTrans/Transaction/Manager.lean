import PredTrans.Storage.ChunkInfo

/-!
The transaction manager (duck_transaction_manager.cpp). Each call holds the transaction lock, so
an interleaving is a list of calls.
-/

namespace PredTrans.Transaction

open PredTrans.Storage (transactionIdStart)

/-- `MAX_TRANSACTION_ID`. -/
def maxTransactionId : Nat := 2 ^ 64 - 1

/-- `MAXIMUM_QUERY_ID`. -/
def maximumQueryId : Nat := 2 ^ 64 - 1

/-- The numbers of a `DuckTransaction`. The transaction id stands for its address too. -/
structure DuckTransaction where
  transactionId : Nat
  startTime : Nat
  commitId : Nat
  activeQuery : Nat
  highestActiveQuery : Nat
  deriving DecidableEq, Repr

structure DuckTransactionManager where
  currentStartTimestamp : Nat
  currentTransactionId : Nat
  lowestActiveId : Nat
  lowestActiveStart : Nat
  activeTransactions : List DuckTransaction
  recentlyCommitted : List DuckTransaction
  oldTransactions : List DuckTransaction
  deriving DecidableEq, Repr

/-- The counters are 64 bits wide. -/
def increment (n : Nat) : Nat := (n + 1) % 2 ^ 64

namespace DuckTransactionManager

/-- `DuckTransactionManager::DuckTransactionManager`. -/
def initial : DuckTransactionManager where
  currentStartTimestamp := 2
  currentTransactionId := transactionIdStart
  lowestActiveId := transactionIdStart
  lowestActiveStart := maxTransactionId
  activeTransactions := []
  recentlyCommitted := []
  oldTransactions := []

/-- `DuckTransactionManager::StartTransaction`; `none` is the exception that no identifiers are
left. -/
def startTransaction (m : DuckTransactionManager) : Option DuckTransactionManager :=
  if transactionIdStart ≤ m.currentStartTimestamp then none
  else
    let startTime := m.currentStartTimestamp
    let transactionId := m.currentTransactionId
    some { m with
      currentStartTimestamp := increment m.currentStartTimestamp
      currentTransactionId := increment m.currentTransactionId
      lowestActiveStart :=
        if m.activeTransactions.isEmpty then startTime else m.lowestActiveStart
      lowestActiveId := if m.activeTransactions.isEmpty then transactionId else m.lowestActiveId
      activeTransactions := m.activeTransactions ++
        [⟨transactionId, startTime, 0, maximumQueryId, 0⟩] }

/-- What the first loop of `RemoveTransaction` collects. -/
structure ActiveScan where
  tIndex : Nat
  lowestStartTime : Nat
  lowestTransactionId : Nat
  lowestActiveQuery : Nat

/-- The first loop of `RemoveTransaction`, from position `i` on. -/
def scanActive (transactionId : Nat) : List DuckTransaction → Nat → ActiveScan → ActiveScan
  | [], _, found => found
  | t :: rest, i, found =>
    scanActive transactionId rest (i + 1) <|
      if t.transactionId = transactionId then { found with tIndex := i }
      else { found with
        lowestStartTime := min found.lowestStartTime t.startTime
        lowestActiveQuery := min found.lowestActiveQuery t.activeQuery
        lowestTransactionId := min found.lowestTransactionId t.transactionId }

/-- The removed transaction is kept for as long as its versions may be needed. -/
def parkRemoved (m : DuckTransactionManager) (current : DuckTransaction) (changesMade : Bool)
    (currentQuery : Nat) : DuckTransactionManager :=
  if changesMade then
    if current.commitId ≠ 0 then
      { m with recentlyCommitted := m.recentlyCommitted ++ [current] }
    else
      { m with oldTransactions :=
        m.oldTransactions ++ [{ current with highestActiveQuery := currentQuery }] }
  else m

/-- The second loop of `RemoveTransaction`: the transactions that are cleaned up, in the order of
the calls of `Cleanup`. -/
def cleanUp (m : DuckTransactionManager) (lowestStartTime currentQuery : Nat) :
    DuckTransactionManager × List DuckTransaction :=
  let cleaned := m.recentlyCommitted.takeWhile fun t => decide (t.commitId < lowestStartTime)
  ({ m with
      recentlyCommitted := m.recentlyCommitted.drop cleaned.length
      oldTransactions := m.oldTransactions ++
        cleaned.map fun t => { t with highestActiveQuery := currentQuery } },
    cleaned)

/-- The last loop of `RemoveTransaction`: the memory of old transactions is freed. -/
def freeOld (m : DuckTransactionManager) (lowestActiveQuery : Nat) : DuckTransactionManager :=
  if m.activeTransactions.isEmpty then { m with oldTransactions := [] }
  else { m with oldTransactions :=
    m.oldTransactions.dropWhile fun t => decide (t.highestActiveQuery < lowestActiveQuery) }

/-- `DuckTransactionManager::RemoveTransaction` with the transactions that it cleans up; `none` if
the transaction is not active. -/
def removeTransaction (m : DuckTransactionManager) (transactionId : Nat) (changesMade : Bool)
    (currentQuery : Nat) : Option (DuckTransactionManager × List DuckTransaction) :=
  let found := scanActive transactionId m.activeTransactions 0
    ⟨m.activeTransactions.length, transactionIdStart, maxTransactionId, maximumQueryId⟩
  match m.activeTransactions[found.tIndex]? with
  | none => none
  | some current =>
    let m := { m with
      lowestActiveStart := found.lowestStartTime, lowestActiveId := found.lowestTransactionId }
    let m := m.parkRemoved current changesMade currentQuery
    let m := { m with activeTransactions := m.activeTransactions.eraseIdx found.tIndex }
    let (m, cleaned) := m.cleanUp found.lowestStartTime currentQuery
    some (m.freeOld found.lowestActiveQuery, cleaned)

/-- A field of an active transaction is set. -/
def updateActive (m : DuckTransactionManager) (transactionId : Nat)
    (f : DuckTransaction → DuckTransaction) : DuckTransactionManager :=
  { m with activeTransactions := m.activeTransactions.map fun t =>
      if t.transactionId = transactionId then f t else t }

/-- `DuckTransactionManager::CommitTransaction`; `failed` says that the commit of the undo buffer
or of the local storage has failed. -/
def commitTransaction (m : DuckTransactionManager) (transactionId : Nat) (failed changesMade : Bool)
    (currentQuery : Nat) : Option (DuckTransactionManager × List DuckTransaction) :=
  let commitId := m.currentStartTimestamp
  let m := { m with currentStartTimestamp := increment m.currentStartTimestamp }
  let m := m.updateActive transactionId fun t =>
    { t with commitId := if failed then 0 else commitId }
  m.removeTransaction transactionId changesMade currentQuery

/-- `DuckTransactionManager::RollbackTransaction`. -/
def rollbackTransaction (m : DuckTransactionManager) (transactionId : Nat) (changesMade : Bool)
    (currentQuery : Nat) : Option (DuckTransactionManager × List DuckTransaction) :=
  m.removeTransaction transactionId changesMade currentQuery

end DuckTransactionManager

/-- The calls on the manager. Whether a transaction has made changes, whether its commit fails and
the current query number come from outside. -/
inductive Call where
  | start
  | commit (transactionId : Nat) (failed changesMade : Bool) (currentQuery : Nat)
  | rollback (transactionId : Nat) (changesMade : Bool) (currentQuery : Nat)
  | setActiveQuery (transactionId query : Nat)
  deriving DecidableEq, Repr

open DuckTransactionManager

/-- One call, with the transactions that it cleans up. -/
def step (m : DuckTransactionManager) : Call →
    Option (DuckTransactionManager × List DuckTransaction)
  | .start => some (m.startTransaction.getD m, [])
  | .commit transactionId failed changesMade currentQuery =>
    m.commitTransaction transactionId failed changesMade currentQuery
  | .rollback transactionId changesMade currentQuery =>
    m.rollbackTransaction transactionId changesMade currentQuery
  | .setActiveQuery transactionId query =>
    some (m.updateActive transactionId fun t => { t with activeQuery := query }, [])

/-- The states that calls on active transactions reach from an empty manager, with all
transactions that have been cleaned up so far. -/
inductive Reaches : List Call → DuckTransactionManager → List DuckTransaction → Prop
  | initial : Reaches [] initial []
  | call {calls m cleaned m' now} (call : Call) (h : Reaches calls m cleaned)
      (hstep : step m call = some (m', now)) : Reaches (calls ++ [call]) m' (cleaned ++ now)

end PredTrans.Transaction
