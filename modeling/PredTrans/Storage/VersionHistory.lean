import PredTrans.Storage.RowVersions

/-! The transactions of `DuckTransactionManager` call one `RowVersionManager`, in any interleaving.
Next to the manager a state records who inserted each row and who marked it as deleted. -/

namespace PredTrans.Storage

/-- A delete entry of the undo buffer. -/
structure DeleteInfo where
  vectorIdx : Nat
  rows : List Nat
  deriving DecidableEq, Repr

def DeleteInfo.rowNumbers (e : DeleteInfo) : List Nat :=
  rowsOf e.vectorIdx e.rows

/-- Why a transaction walks through its undo buffer. `Commit` writes its commit
id over its marks; when it throws, `RevertCommit` writes the transaction id back;
`Rollback` releases the rows. -/
inductive Goal where
  | commit (commitId : Nat)
  | revert (commitId : Nat)
  | rollback
  deriving DecidableEq, Repr

/-- The id that `CommitDelete` is called with. -/
def Goal.stampId (transactionId : Nat) : Goal → Nat
  | commit c => c
  | revert _ => transactionId
  | rollback => notDeletedId

/-- Progress of a transaction. It is `failed` once a delete of it has thrown, after
which it can only be rolled back. -/
inductive Phase where
  | active
  | failed
  | stamping (goal : Goal) (todo : List DeleteInfo)
  | committed (commitId : Nat)
  | aborted
  deriving DecidableEq, Repr

/-- The transaction still runs statements. -/
def Phase.Running : Phase → Prop
  | active => True
  | failed => True
  | _ => False

/-- The transaction is in its commit with this commit id, or in the undoing of it. -/
def Phase.Committing (c : Nat) : Phase → Prop
  | stamping (.commit c') _ => c' = c
  | stamping (.revert c') _ => c' = c
  | _ => False

/-- The transaction has begun and has neither committed nor been rolled back. -/
def Phase.Unfinished : Phase → Prop
  | committed _ => False
  | aborted => False
  | _ => True

/-- The phases in which a transaction may append: its commit flushes the rows it
inserted. -/
def Phase.MayAppend : Phase → Prop
  | active => True
  | stamping (.commit _) _ => True
  | _ => False

structure Txn where
  startTime : Nat
  undo : List DeleteInfo := []
  phase : Phase := .active
  deriving DecidableEq, Repr

/-- The undo entries whose rows are still in the hands of the transaction. -/
def Txn.entries (x : Txn) : List DeleteInfo :=
  match x.phase with
  | .active => x.undo
  | .failed => x.undo
  | .stamping .rollback todo => todo
  | .stamping _ _ => x.undo
  | .committed _ => []
  | .aborted => []

/-- The transaction after a call of `DeleteRows`: the undo entry is pushed only when
the call returned and marked something. -/
def Txn.afterDelete (x : Txn) (v : Nat) : Except StorageError (List Nat) → Txn
  | .ok [] => x
  | .ok (r :: rows) => { x with undo := x.undo ++ [⟨v, r :: rows⟩] }
  | .error _ => { x with phase := .failed }

/-- The last append while it is neither committed nor reverted. -/
structure PendingAppend where
  owner : Nat
  firstRow : Nat
  /-- The commit id, once `CommitAppend` has run. -/
  stamp : Option Nat
  deriving DecidableEq, Repr

structure History where
  manager : RowVersionManager
  count : Nat
  txns : Nat → Option Txn
  /-- `current_start_timestamp` -/
  clock : Nat
  /-- `current_transaction_id` -/
  nextId : Nat
  pending : Option PendingAppend
  /-- The transaction that holds the transaction lock. -/
  lock : Option Nat
  /-- Who inserted a row; `0` stands for rows loaded from disk. -/
  inserter : Nat → Nat
  /-- Who marked a row as deleted. -/
  deleter : Nat → Option Nat

def setTxn (txns : Nat → Option Txn) (t : Nat) (x : Txn) : Nat → Option Txn :=
  fun u => if u = t then some x else txns u

@[simp] theorem setTxn_self (txns : Nat → Option Txn) (t : Nat) (x : Txn) :
    setTxn txns t x t = some x := by
  simp [setTxn]

theorem setTxn_of_ne (h : u ≠ t) : setTxn txns t x u = txns u := by
  simp [setTxn,h]

theorem setTxn_cases (h : setTxn txns t x u = some y) :
    (u = t ∧ y = x) ∨ (u ≠ t ∧ txns u = some y) := by
  by_cases hu : u = t
  · rw [hu,setTxn_self] at h
    exact .inl ⟨hu,(Option.some.inj h).symm⟩
  · rw [setTxn_of_ne hu] at h
    exact .inr ⟨hu,h⟩

namespace History

/-- The rows below are settled; the rows from here on belong to a pending append. -/
def limit (s : History) : Nat :=
  match s.pending with
  | none => s.count
  | some p => p.firstRow

/-- The delete marks after `t` walked through the given slots: it marks unmarked
rows and stops at the first row that someone else has marked. -/
def markDeleted (s : History) (t v : Nat) (slots : List Nat) : Nat → Option Nat :=
  let fresh := freshRows (fun i => s.deleter (v * standardVectorSize + i) == some t)
    (fun i => s.deleter (v * standardVectorSize + i) == none) slots
  fun r => if r ∈ rowsOf v fresh then some t else s.deleter r

/-- The marks after one undo entry has been handled: only a rollback removes them. -/
def unmark (s : History) (goal : Goal) (e : DeleteInfo) : Nat → Option Nat :=
  match goal with
  | .rollback => fun r => if r ∈ e.rowNumbers then none else s.deleter r
  | _ => s.deleter

/-- One call, or one move of a transaction between its phases. -/
inductive Step : History → History → Prop where
  | begin {s : History} (hlock : s.lock = none) (hclock : s.clock < transactionIdStart)
      (hid : s.nextId < notDeletedId) :
      Step s { s with
        txns := setTxn s.txns s.nextId { startTime := s.clock }
        clock := s.clock + 1
        nextId := s.nextId + 1 }
  | append {s : History} {t k : Nat} {x : Txn} {m : RowVersionManager} (hx : s.txns t = some x)
      (hphase : x.phase.MayAppend) (hnone : s.pending = none) (hk : 0 < k)
      (hfit : s.count + k ≤ rowGroupSize)
      (hm : s.manager.appendVersionInfo ⟨t, x.startTime⟩ s.count (s.count + k) = .ok m) :
      Step s { s with
        manager := m
        count := s.count + k
        pending := some ⟨t, s.count, none⟩
        inserter := fun r => if s.count ≤ r then t else s.inserter r
        deleter := fun r => if s.count ≤ r then none else s.deleter r }
  -- the rows come from a scan, so they belong to no pending append and were not
  -- loaded as deleted
  | delete {s : History} {t v : Nat} {x : Txn} {slots : List Nat} (hx : s.txns t = some x)
      (hphase : x.phase = .active) (hne : slots ≠ [])
      (hslots : ∀ i ∈ slots, i < standardVectorSize ∧ v * standardVectorSize + i < s.limit ∧
        s.deleter (v * standardVectorSize + i) ≠ some 0) :
      Step s { s with
        manager := (s.manager.deleteRows v t slots).1
        deleter := s.markDeleted t v slots
        txns := setTxn s.txns t (x.afterDelete v (s.manager.deleteRows v t slots).2) }
  | startCommit {s : History} {t : Nat} {x : Txn} (hx : s.txns t = some x)
      (hphase : x.phase = .active) (hlock : s.lock = none) (hclock : s.clock < transactionIdStart) :
      Step s { s with
        txns := setTxn s.txns t { x with phase := .stamping (.commit s.clock) x.undo }
        clock := s.clock + 1
        lock := some t }
  | commitAppend {s : History} {t a c : Nat} {x : Txn} {todo : List DeleteInfo}
      {m : RowVersionManager} (hx : s.txns t = some x)
      (hphase : x.phase = .stamping (.commit c) todo) (hp : s.pending = some ⟨t, a, none⟩)
      (hm : s.manager.commitAppend c a (s.count - a) = .ok m) :
      Step s { s with manager := m, pending := some ⟨t, a, some c⟩ }
  | stamp {s : History} {t : Nat} {x : Txn} {goal : Goal} {e : DeleteInfo} {todo : List DeleteInfo}
      (hx : s.txns t = some x) (hphase : x.phase = .stamping goal (e :: todo)) :
      Step s { s with
        manager := s.manager.commitDelete e.vectorIdx (goal.stampId t) e.rows
        deleter := s.unmark goal e
        txns := setTxn s.txns t { x with phase := .stamping goal todo } }
  -- the commit throws; `RevertCommit` visits some undo entries, among them all
  -- those whose rows carry the commit id by now
  | fail {s : History} {t c : Nat} {x : Txn} {todo : List DeleteInfo} (visited : List DeleteInfo)
      (hx : s.txns t = some x) (hphase : x.phase = .stamping (.commit c) todo)
      (hundo : visited ⊆ x.undo)
      (hall : ∀ r, s.deleter r = some t → s.manager.deletedAt r ≠ t →
        r ∈ visited.flatMap DeleteInfo.rowNumbers) :
      Step s { s with
        txns := setTxn s.txns t { x with phase := .stamping (.revert c) visited } }
  | startRollback {s : History} {t : Nat} {x : Txn} (hx : s.txns t = some x)
      (hphase : x.phase.Running) (hlock : s.lock = none) :
      Step s { s with
        txns := setTxn s.txns t { x with phase := .stamping .rollback x.undo.reverse }
        lock := some t }
  | revertAppend {s : History} {t a : Nat} {x : Txn} {stamped : Option Nat}
      (hx : s.txns t = some x) (hphase : ∀ c todo, x.phase ≠ .stamping (.commit c) todo)
      (hp : s.pending = some ⟨t, a, stamped⟩) :
      Step s { s with manager := s.manager.revertAppend a, count := a, pending := none }
  | finishCommit {s : History} {t c : Nat} {x : Txn} (hx : s.txns t = some x)
      (hphase : x.phase = .stamping (.commit c) [])
      (hp : ∀ p, s.pending = some p → p.owner = t → p.stamp ≠ none) :
      Step s { s with
        txns := setTxn s.txns t { x with phase := .committed c }
        pending := s.pending.filter (fun p => p.owner ≠ t)
        lock := none }
  | finishRevert {s : History} {t c : Nat} {x : Txn} (hx : s.txns t = some x)
      (hphase : x.phase = .stamping (.revert c) []) :
      Step s { s with
        txns := setTxn s.txns t { x with phase := .stamping .rollback x.undo.reverse } }
  | finishRollback {s : History} {t : Nat} {x : Txn} (hx : s.txns t = some x)
      (hphase : x.phase = .stamping .rollback []) (hp : ∀ p, s.pending = some p → p.owner ≠ t) :
      Step s { s with
        txns := setTxn s.txns t { x with phase := .aborted }
        lock := none }

/-- Any number of steps. -/
abbrev Run : History → History → Prop := Relation.ReflTransGen Step

/-- A row group with `n` rows, before any transaction has started. Rows that were
loaded as deleted have the loader as their deleter. -/
def initial (m : RowVersionManager) (n : Nat) : History where
  manager := m
  count := n
  txns t := if t = 0 then some { startTime := 0, phase := .committed 0 } else none
  clock := 2
  nextId := transactionIdStart
  pending := none
  lock := none
  inserter _ := 0
  deleter r := if m.deletedAt r = 0 then some 0 else none

def Committed (s : History) (t c : Nat) : Prop :=
  ∃ x, s.txns t = some x ∧ x.phase = .committed c

/-- `t` is the transaction itself, or it committed before the transaction started. -/
def Sees (s : History) (T : TransactionData) (t : Nat) : Prop :=
  t = T.transactionId ∨ ∃ c, s.Committed t c ∧ c < T.startTime

/-- The row was inserted by a transaction that `T` sees and marked as deleted by none. -/
def Visible (s : History) (T : TransactionData) (r : Nat) : Prop :=
  s.Sees T (s.inserter r) ∧ ∀ t, s.deleter r = some t → ¬ s.Sees T t

/-- `T` is a transaction that still runs. -/
def IsActive (s : History) (T : TransactionData) : Prop :=
  ∃ x, s.txns T.transactionId = some x ∧ x.startTime = T.startTime ∧ x.phase.Running

end History

end PredTrans.Storage
