import Rmdb.Record.Heap
import Rmdb.Transaction.Watermark

/-! Transactions, their undo logs and the tables that the transaction manager keeps of them.
The concurrency mode is MVCC throughout. -/
namespace Rmdb

inductive Value where
  | int (val : BitVec 32)
  | float (bits : BitVec 32)
  | str (val : Bytes)
deriving DecidableEq, Repr

structure UndoLink where
  prevTxn : ℤ
  prevLogIdx : ℕ
deriving DecidableEq, Repr

def UndoLink.invalid : UndoLink := ⟨invalidTxnId, 0⟩

def UndoLink.isValid (link : UndoLink) : Bool := link.prevTxn ≠ invalidTxnId

/-- An overwritten version of a row. `source` is not stored: it is the row that the values of
`tuple` were taken from. -/
structure UndoLog where
  isDeleted : Bool
  modifiedFields : List Bool
  tuple : List Value
  ts : ℤ
  prevVersion : UndoLink
  source : RowData
deriving DecidableEq, Repr

inductive WType where
  | insertTuple
  | deleteTuple
  | updateTuple
deriving DecidableEq, Repr

/-- What a rollback puts back. -/
structure WriteRecord where
  wtype : WType
  tabName : String
  rid : Rid
  record : RmRecord
deriving DecidableEq, Repr

inductive TransactionState where
  | default
  | growing
  | shrinking
  | committed
  | aborted
deriving DecidableEq, Repr

structure Transaction where
  txnId : ℤ
  txnMode : Bool
  state : TransactionState
  startTs : ℤ
  commitTs : ℤ
  writeSet : List WriteRecord
  undoLogs : List UndoLog
  /-- The object has been deleted while the transaction table still points to it. -/
  freed : Bool
deriving DecidableEq, Repr

def Transaction.isActive (txn : Transaction) : Bool :=
  txn.state = .default || txn.state = .growing || txn.state = .shrinking

def Transaction.isFinished (txn : Transaction) : Bool :=
  txn.state = .committed || txn.state = .aborted

structure TransactionManager where
  nextTxnId : ℤ
  nextTimestamp : ℤ
  lastCommitTs : ℤ
  runningTxns : Watermark
  txnMap : List Transaction
  abortedTxns : List ℤ
  committedTxns : List ℤ
  /-- The version chains, by page and slot number only. -/
  versionInfo : Rid → Option UndoLink

namespace TransactionManager

/-- The manager of a server that was just started. -/
def init (nextTimestamp : ℤ) : TransactionManager where
  nextTxnId := 0
  nextTimestamp := nextTimestamp
  lastCommitTs := 0
  runningTxns := .init 0
  txnMap := []
  abortedTxns := []
  committedTxns := []
  versionInfo _ := none

variable (tm : TransactionManager)

def getTransaction (txnId : ℤ) : Option Transaction :=
  if txnId = invalidTxnId then none else tm.txnMap.find? (·.txnId = txnId)

def getTransactionByTimestamp (ts : ℤ) : Option Transaction := tm.txnMap.find? (·.startTs = ts)

def modifyTxn (txnId : ℤ) (f : Transaction → Transaction) : TransactionManager :=
  { tm with txnMap := tm.txnMap.map fun txn => if txn.txnId = txnId then f txn else txn }

def newTransaction : Transaction where
  txnId := tm.nextTxnId
  txnMode := true
  state := .default
  startTs := tm.nextTimestamp
  commitTs := -1
  writeSet := []
  undoLogs := []
  freed := false

def begin : ℤ × TransactionManager :=
  (tm.nextTxnId,
    { tm with
      nextTxnId := tm.nextTxnId + 1
      nextTimestamp := tm.nextTimestamp + 1
      runningTxns := tm.runningTxns.addTxn tm.nextTimestamp
      txnMap := tm.txnMap ++ [tm.newTransaction] })

/-! ### Visibility tests -/

def isTransactionAborted (ts : ℤ) : Bool := ts ∈ tm.abortedTxns

def isCommitted (ts : ℤ) : Bool :=
  if ts = 0 then true
  else if tm.isTransactionAborted ts then false
  else match tm.getTransactionByTimestamp ts with
    | some txn => txn.state = .committed
    | none => ts < tm.runningTxns.watermark

def isCommittedBeforeReadTs (ts readTs : ℤ) : Bool :=
  if ts = 0 then true
  else if readTs ≤ ts then false
  else if tm.isTransactionAborted ts then false
  else if ts ∈ tm.committedTxns then true
  else match tm.getTransactionByTimestamp ts with
    | some txn => txn.state = .committed
    | none => ts ≤ tm.runningTxns.watermark

/-! ### Version chains -/

/-- Slots and pages with negative numbers have no chain. -/
def getVersionLink (rid : Rid) : Option UndoLink :=
  if rid.pageNo < 0 ∨ rid.slotNo < 0 then none else tm.versionInfo rid

def getUndoLink (rid : Rid) : Option UndoLink := (tm.versionInfo rid).filter (·.isValid)

def updateVersionLink (rid : Rid) (link : UndoLink) : TransactionManager :=
  { tm with versionInfo := Function.update tm.versionInfo rid (some link) }

def getUndoLogOptional (link : UndoLink) : Option UndoLog := do
  let txn ← tm.getTransaction link.prevTxn
  txn.undoLogs[link.prevLogIdx]?

/-- The number of undo logs; no chain is longer. -/
def logCount : ℕ := (tm.txnMap.map (·.undoLogs.length)).sum

/-- The link to the log that `appendUndoLog` is about to append. -/
def nextUndoLink (txnId : ℤ) : UndoLink :=
  ⟨txnId, ((tm.getTransaction txnId).map (·.undoLogs.length)).getD 0⟩

def appendUndoLog (txnId : ℤ) (log : UndoLog) : TransactionManager :=
  tm.modifyTxn txnId fun txn => { txn with undoLogs := txn.undoLogs ++ [log] }

def appendWriteRecord (txnId : ℤ) (rec : WriteRecord) : TransactionManager :=
  tm.modifyTxn txnId fun txn => { txn with writeSet := txn.writeSet ++ [rec] }

/-! ### The ends of a transaction -/

/-- The commit timestamp goes to the transaction and to its undo logs that carry its start
timestamp, that is, to the images of its own earlier writes. -/
def stampCommit (txnId commitTs : ℤ) : TransactionManager :=
  tm.modifyTxn txnId fun txn => { txn with
    commitTs
    undoLogs := txn.undoLogs.map fun log =>
      if log.ts = txn.startTs then { log with ts := commitTs } else log }

def finishCommit (txnId startTs commitTs : ℤ) : TransactionManager :=
  { tm.modifyTxn txnId fun txn => { txn with state := .committed } with
    lastCommitTs := max tm.lastCommitTs commitTs
    runningTxns := (tm.runningTxns.updateCommitTs commitTs).removeTxn startTs
    committedTxns := commitTs :: tm.committedTxns }

def markAborted (txnId startTs : ℤ) : TransactionManager :=
  { tm.modifyTxn txnId fun txn => { txn with state := .aborted } with
    runningTxns := tm.runningTxns.removeTxn startTs
    abortedTxns := startTs :: tm.abortedTxns }

/-- Finished transactions that started by the watermark are dropped, with the timestamps and
the chains that are old enough. -/
def garbageCollection : TransactionManager :=
  let watermark := tm.runningTxns.watermark
  let tm := { tm with
    txnMap := tm.txnMap.filter fun txn : Transaction =>
      !(txn.isFinished && txn.startTs ≤ watermark)
    abortedTxns := tm.abortedTxns.filter (watermark < ·)
    committedTxns := tm.committedTxns.filter (watermark < ·) }
  { tm with
    versionInfo := fun rid => (tm.versionInfo rid).filter fun link : UndoLink =>
      link.isValid && ((tm.getUndoLogOptional link).any fun log : UndoLog => watermark < log.ts) }

/-! ### Looking transactions up after an operation -/

section lemmas
variable {tm} {id j ts : ℤ} {f : Transaction → Transaction}

private theorem find?_map_if {p : Transaction → Bool} {g : Transaction → Transaction}
    (hp : ∀ txn, p (g txn) = p txn) (l : List Transaction) :
    (l.map g).find? p = (l.find? p).map g := by
  rw [List.find?_map]
  congr 2
  funext txn
  exact hp txn

theorem getTransaction_modifyTxn (hf : ∀ txn, (f txn).txnId = txn.txnId) :
    (tm.modifyTxn id f).getTransaction j =
      (tm.getTransaction j).map fun txn => if txn.txnId = id then f txn else txn := by
  unfold getTransaction
  split
  · rfl
  · refine find?_map_if (fun txn => ?_) _
    split <;> simp [hf]

theorem mem_of_getTransaction {txn : Transaction} (h : tm.getTransaction id = some txn) :
    txn ∈ tm.txnMap ∧ txn.txnId = id := by
  unfold getTransaction at h
  split at h
  · cases h
  · exact ⟨List.mem_of_find?_eq_some h, by simpa using List.find?_some h⟩

/-- Seen by identifier, only the modified transaction changes. -/
theorem getTransaction_modifyTxn_ite (hf : ∀ txn, (f txn).txnId = txn.txnId) :
    (tm.modifyTxn id f).getTransaction j =
      if j = id then (tm.getTransaction j).map f else tm.getTransaction j := by
  rw [getTransaction_modifyTxn hf]
  cases h : tm.getTransaction j with
  | none => simp
  | some txn => by_cases hj : j = id <;> simp [(mem_of_getTransaction h).2, hj]

theorem mem_of_getTransactionByTimestamp {txn : Transaction}
    (h : tm.getTransactionByTimestamp ts = some txn) : txn ∈ tm.txnMap ∧ txn.startTs = ts :=
  ⟨List.mem_of_find?_eq_some h, by simpa using List.find?_some h⟩

theorem getTransactionByTimestamp_eq_none :
    tm.getTransactionByTimestamp ts = none ↔ ∀ txn ∈ tm.txnMap, txn.startTs ≠ ts := by
  simp [getTransactionByTimestamp]

theorem modifyTxn_modifyTxn {g : Transaction → Transaction} (hf : ∀ txn, (f txn).txnId = txn.txnId) :
    ((tm.modifyTxn id f).modifyTxn id g).txnMap = (tm.modifyTxn id (g ∘ f)).txnMap := by
  simp only [modifyTxn, List.map_map]
  congr 1
  funext txn
  by_cases h : txn.txnId = id <;> simp [h, hf]

theorem getTransaction_begin (hids : ∀ txn ∈ tm.txnMap, txn.txnId < tm.nextTxnId)
    (hnext : 0 ≤ tm.nextTxnId) :
    tm.begin.2.getTransaction j =
      if j = tm.nextTxnId then some tm.newTransaction else tm.getTransaction j := by
  unfold getTransaction
  by_cases hj : j = tm.nextTxnId
  · have hold : tm.txnMap.find? (·.txnId = j) = none := by
      rw [List.find?_eq_none]
      intro txn htxn
      have := hids txn htxn
      simp only [decide_eq_true_eq]
      omega
    have hne : j ≠ invalidTxnId := by
      simp only [invalidTxnId]
      omega
    simp only [begin, List.find?_append, hold, hne, if_false]
    simp [newTransaction, hj]
  · have hnew : ([tm.newTransaction].find? (·.txnId = j)) = none := by
      simpa [newTransaction] using fun h => hj h.symm
    simp only [begin, List.find?_append, hnew, hj, if_false, Option.or_none]

theorem mem_modifyTxn {txn : Transaction} (h : txn ∈ (tm.modifyTxn id f).txnMap) :
    ∃ old ∈ tm.txnMap, txn = if old.txnId = id then f old else old := by
  obtain ⟨old, hold, rfl⟩ := List.mem_map.mp h
  exact ⟨old, hold, rfl⟩

end lemmas
end TransactionManager
end Rmdb
