import Rmdb.Record.Visibility

/-! The record files together with the transaction manager, and what statements, commits and
aborts do to them. -/
namespace Rmdb

inductive WriteKind where
  | insert
  | update
  | delete
  /-- A slot is put back by a rollback, or freed by an insertion that failed. -/
  | undo
deriving DecidableEq, Repr

structure HeapWrite where
  txnId : ℤ
  tab : String
  rid : Rid
  kind : WriteKind
  record : RmRecord
deriving DecidableEq, Repr

structure Store where
  txnMgr : TransactionManager
  fhs : String → Option RmFileHandle
  /-- Every write to a slot, the newest first. No code reads it. -/
  history : List HeapWrite

namespace Store

variable (s : Store)

/-- The contents of a slot of an open table. -/
def slot (tab : String) (rid : Rid) : Option RmRecord := (s.fhs tab).map (·.record rid)

def occupied (tab : String) (rid : Rid) : Bool := (s.fhs tab).any (·.isRecord rid)

def hasPage (tab : String) (pageNo : ℤ) : Prop := ∃ fh, s.fhs tab = some fh ∧ fh.hasPage pageNo

def getRecordMvcc (tab : String) (startTs : ℤ) (rid : Rid) : Except DbError (Option RecordView) :=
  match s.fhs tab with
  | none => throw .crash
  | some fh => fh.getRecordMvcc s.txnMgr startTs rid

/-! ### Writes of a statement -/

def appendUndoLog (txn : Transaction) (log : UndoLog) : Store :=
  { s with txnMgr := s.txnMgr.appendUndoLog txn.txnId log }

/-- The record that an INSERT writes to the slot it gets. -/
def insertedRecord (txn : Transaction) (tab : String) (data : Bytes) (rid : Rid) : RmRecord :=
  ⟨⟨txn.startTs, false⟩, ⟨data, txn.txnId, tab, rid⟩, txn.txnId⟩

def insertLog (colCount : ℕ) (row : RowData) : UndoLog where
  isDeleted := true
  modifiedFields := List.replicate colCount true
  tuple := []
  ts := 0
  prevVersion := .invalid
  source := row

/-- `insert_record` with the undo log of an INSERT. The log starts a new version chain, also
when no slot was found. -/
def insertTuple (txn : Transaction) (tab : String) (fh : RmFileHandle) (data : Bytes)
    (colCount : ℕ) : Rid × Store :=
  let inserted := fh.insertRecord (insertedRecord txn tab data)
  let rid := inserted.1
  let rec_ := insertedRecord txn tab data rid
  let link := s.txnMgr.nextUndoLink txn.txnId
  let tm := s.txnMgr.appendUndoLog txn.txnId (insertLog colCount rec_.row)
  (rid,
    { txnMgr := tm.updateVersionLink rid link
      fhs := Function.update s.fhs tab (some inserted.2)
      history :=
        if rid = ⟨-1, -1⟩ then s.history else ⟨txn.txnId, tab, rid, .insert, rec_⟩ :: s.history })

/-- `delete_record` after an index has refused the new row. -/
def dropInserted (txn : Transaction) (tab : String) (fh : RmFileHandle) (rid : Rid) : Store :=
  { s with
    fhs := Function.update s.fhs tab (some (fh.deleteRecord rid))
    history :=
      if fh.isRecord rid then
        ⟨txn.txnId, tab, rid, .undo, zeroRecord fh.recordSize⟩ :: s.history
      else s.history }

/-- `update_record` with the new version link and the entry of the write set. -/
def installVersion (txn : Transaction) (tab : String) (fh : RmFileHandle) (wtype : WType)
    (rid : Rid) (link : UndoLink) (rec_ : RmRecord) : Store :=
  { txnMgr :=
      (s.txnMgr.updateVersionLink rid link).appendWriteRecord txn.txnId
        ⟨wtype, tab, rid, fh.record rid⟩
    fhs := Function.update s.fhs tab (some (fh.updateRecord rid rec_))
    history :=
      ⟨txn.txnId, tab, rid, if wtype = .deleteTuple then .delete else .update, rec_⟩ :: s.history }

/-! ### Begin, commit and abort -/

def begin : Store := { s with txnMgr := s.txnMgr.begin.2 }

/-- `UpdateRecordCommitTimestamp`: only a used slot that still carries the start timestamp. -/
def restamp (txn : Transaction) (commitTs : ℤ) (w : WriteRecord) : Store :=
  match s.fhs w.tabName with
  | none => s
  | some fh =>
    let rec_ := fh.record w.rid
    if fh.isRecord w.rid ∧ rec_.tupleMeta.ts = txn.startTs ∧ txn.startTs < commitTs then
      { s with
        fhs := Function.update s.fhs w.tabName
          (some (fh.updateRecord w.rid
            { rec_ with tupleMeta := { rec_.tupleMeta with ts := commitTs } })) }
    else s

def updateCommitTimestamp (txn : Transaction) (commitTs : ℤ) : Store :=
  txn.writeSet.foldl (fun s w => s.restamp txn commitTs w)
    { s with txnMgr := s.txnMgr.stampCommit txn.txnId commitTs }

def commit (txn : Transaction) : Store :=
  let commitTs := s.txnMgr.nextTimestamp
  let s := { s with txnMgr := { s.txnMgr with nextTimestamp := commitTs + 1 } }
  let s := s.updateCommitTimestamp txn commitTs
  { s with txnMgr := s.txnMgr.finishCommit txn.txnId txn.startTs commitTs }

def markAborted (txn : Transaction) : Store :=
  { s with txnMgr := s.txnMgr.markAborted txn.txnId txn.startTs }

/-- What a rollback does to the file of the table. -/
def undoWrite (w : WriteRecord) (fh : RmFileHandle) : RmFileHandle :=
  match w.wtype with
  | .insertTuple => fh.deleteRecord w.rid
  | .deleteTuple => fh.insertRecordAt w.rid w.record
  | .updateTuple => fh.updateRecord w.rid w.record

/-- One round of the rollback loop. Without the table the server goes down. -/
def rollbackOne (txnId : ℤ) : Option Store := do
  let txn ← s.txnMgr.getTransaction txnId
  let w ← txn.writeSet.getLast?
  let fh ← s.fhs w.tabName
  return {
    txnMgr := s.txnMgr.modifyTxn txnId fun txn => { txn with writeSet := txn.writeSet.dropLast }
    fhs := Function.update s.fhs w.tabName (some (undoWrite w fh))
    history := ⟨txnId, w.tabName, w.rid, .undo, (undoWrite w fh).record w.rid⟩ :: s.history }

def rollbackAll (txnId : ℤ) : ℕ → Store → Option Store
  | 0, s => some s
  | n + 1, s => (s.rollbackOne txnId).bind (rollbackAll txnId n)

def abort (txn : Transaction) : Option Store :=
  rollbackAll txn.txnId txn.writeSet.length (s.markAborted txn)

def garbageCollection : Store := { s with txnMgr := s.txnMgr.garbageCollection }

end Store
end Rmdb
