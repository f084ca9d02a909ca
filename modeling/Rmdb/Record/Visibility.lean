import Rmdb.Transaction.Manager

/-! The versions that a transaction sees: `get_record_mvcc`, the walk through the undo logs
behind it, and the write-write conflict check. -/
namespace Rmdb

inductive RmdbErrorKind where
  | tableNotFound
  | tableExists
  | indexExists
  | indexNotFound
  | columnNotFound
  | invalidValueCount
  | incompatibleType (lhs rhs : ColType)
  | stringOverflow
  | primaryKeyViolation
  | uniqueIndexViolation
  | indexEntryNotFound
  | invalidColLength
  | invalidRecordSize
  | diskRead
  | unixError
  | internalError
  | ambiguousColumn (colName : String)
deriving DecidableEq, Repr

/-- What a statement can throw. `crash` stands for what takes the server down. -/
inductive DbError where
  | transactionAbort
  | rmdb (kind : RmdbErrorKind)
  | crash
deriving DecidableEq, Repr

/-- A record as it is handed out: with its header still in front, or without. -/
structure RecordView where
  header : Option TupleMeta
  row : RowData
deriving DecidableEq, Repr

namespace TransactionManager

/-- A header with a timestamp from far in the future is taken for row data. -/
def hasTupleMeta (tm : TransactionManager) (m : TupleMeta) : Bool :=
  m.ts = 0 || (0 < m.ts && m.ts ≤ tm.nextTimestamp + 1000)

def effectiveMeta (tm : TransactionManager) (m : TupleMeta) : TupleMeta :=
  if tm.hasTupleMeta m then m else ⟨0, false⟩

/-- The versions in the undo logs that a transaction may see. -/
def logVisible (tm : TransactionManager) (startTs : ℤ) (log : UndoLog) : Bool :=
  log.ts = 0 || log.ts = startTs ||
    (log.ts < startTs && tm.isCommittedBeforeReadTs log.ts startTs)

end TransactionManager

/-- The four bytes that a value fills in a reconstructed row. -/
def Value.reconstructedBytes : Value → Bytes
  | .int val => wordBytes val
  | .float bits => wordBytes bits
  | .str val => (val ++ List.replicate 4 0).take 4

namespace RmFileHandle

variable (fh : RmFileHandle)

/-- `get_record` outside MVCC: a positive first word is taken for a timestamp, and the header
is dropped. -/
def getRecord (rid : Rid) : Option RecordView :=
  if fh.hasPage rid.pageNo then
    let rec_ := fh.record rid
    some ⟨if 0 < rec_.tupleMeta.ts then none else some rec_.tupleMeta, rec_.row⟩
  else none

/-- At most the first two fields are put back, at offsets 0 and 4; the rest of the row is
zeros. -/
def reconstructTupleFromUndoLog (log : UndoLog) : Option RowData :=
  if log.tuple.isEmpty then none
  else
    let dataSize := fh.recordSize - tupleMetaSize
    let fieldCount := min (min log.tuple.length log.modifiedFields.length) 2
    let fits := min fieldCount (dataSize / 4)
    let fields := (log.tuple.take fits).flatMap Value.reconstructedBytes
    some { log.source with bytes := fields ++ List.replicate (dataSize - fields.length) 0 }

/-- The walk along a version chain: `none` when the chain ends without a decision, `some none`
when the row did not exist. -/
def walkHistory (tm : TransactionManager) (startTs : ℤ) : ℕ → UndoLink → Option (Option RowData)
  | 0, _ => none
  | fuel + 1, link =>
    match tm.getUndoLogOptional link with
    | none => none
    | some log =>
      if tm.logVisible startTs log then
        if log.isDeleted then some none
        else match fh.reconstructTupleFromUndoLog log with
          | some row => some (some row)
          | none => walkHistory tm startTs fuel log.prevVersion
      else walkHistory tm startTs fuel log.prevVersion

/-- What is served when the chain does not decide: the record in the file, once more. -/
def currentFallback (tm : TransactionManager) (startTs : ℤ) (rid : Rid) : Option RecordView :=
  (fh.getRecord rid).bind fun view =>
    let m := view.header.getD ⟨0, false⟩
    if m.ts = 0 ∨ (m.ts ≤ startTs ∧ tm.isCommittedBeforeReadTs m.ts startTs ∧ m.isDeleted = false) then
      some ⟨none, view.row⟩
    else none

def getVisibleVersionFromHistory (tm : TransactionManager) (startTs : ℤ) (rid : Rid) :
    Option RecordView :=
  match tm.getVersionLink rid with
  | none => fh.currentFallback tm startTs rid
  | some link =>
    match fh.walkHistory tm startTs (tm.logCount + 1) link with
    | some row => row.map fun row => ⟨none, row⟩
    | none => fh.currentFallback tm startTs rid

/-- A slot with a negative number lies outside of its page. -/
def getRecordMvcc (tm : TransactionManager) (startTs : ℤ) (rid : Rid) :
    Except DbError (Option RecordView) :=
  if ¬fh.hasPage rid.pageNo then return none
  else if rid.slotNo < 0 then throw .crash
  else
    let raw := fh.record rid
    let m := tm.effectiveMeta raw.tupleMeta
    let current : RecordView :=
      ⟨if tm.hasTupleMeta raw.tupleMeta then none else some raw.tupleMeta, raw.row⟩
    let history := fh.getVisibleVersionFromHistory tm startTs rid
    if m.ts = 0 then
      return if m.isDeleted then none else some current
    else if m.isDeleted then
      if m.ts = startTs then return none
      else if tm.isCommittedBeforeReadTs m.ts startTs then return none
      else if tm.isTransactionAborted m.ts then return history
      else if (tm.getTransactionByTimestamp m.ts).any (·.isActive) then throw .transactionAbort
      else return history
    else if m.ts = startTs then return some current
    else if m.ts < startTs then
      return if tm.isCommittedBeforeReadTs m.ts startTs then some current else history
    -- A version from after the start of the reader: all three branches look into the history.
    else return history

/-- Whether the version in the slot decides what the reader gets. -/
def readsInPlace (tm : TransactionManager) (startTs : ℤ) (rid : Rid) : Prop :=
  let ts := (tm.effectiveMeta (fh.record rid).tupleMeta).ts
  ts = 0 ∨ ts = startTs ∨ tm.isCommittedBeforeReadTs ts startTs = true

instance (tm : TransactionManager) (startTs : ℤ) (rid : Rid) :
    Decidable (fh.readsInPlace tm startTs rid) :=
  inferInstanceAs (Decidable (_ ∨ _))

/-- The version in the slot was deleted by a transaction that is still active. -/
def deletedByActive (tm : TransactionManager) (rid : Rid) : Prop :=
  let m := tm.effectiveMeta (fh.record rid).tupleMeta
  m.isDeleted = true ∧ tm.isTransactionAborted m.ts = false ∧
    (tm.getTransactionByTimestamp m.ts).any (·.isActive) = true

instance (tm : TransactionManager) (rid : Rid) : Decidable (fh.deletedByActive tm rid) :=
  inferInstanceAs (Decidable (_ ∧ _))

def currentView (tm : TransactionManager) (rid : Rid) : RecordView :=
  let raw := fh.record rid
  ⟨if tm.hasTupleMeta raw.tupleMeta then none else some raw.tupleMeta, raw.row⟩

/-- Whether `txn` must not write `rid`. The owner of a version is looked up by start
timestamp, so versions stamped by a commit have none. -/
def checkWriteWriteConflict (tm : TransactionManager) (txn : Transaction) (rid : Rid) : Bool :=
  if fh.hasPage rid.pageNo then
    let ts := (tm.effectiveMeta (fh.record rid).tupleMeta).ts
    let owner := tm.getTransactionByTimestamp ts
    let tooNew :=
      match tm.isCommitted ts, owner with
      | true, some owner => decide (txn.startTs < owner.commitTs)
      | _, _ => decide (txn.startTs < ts)
    if ts = 0 then false
    else if ts = txn.startTs then false
    else if txn.state = .aborted then true
    else match owner.filter (·.txnId ≠ txn.txnId) with
      | some owner =>
        if owner.isActive then true
        else if owner.state = .aborted then false
        else tooNew
      | none => tooNew
  else false

/-- The branches of `get_record_mvcc`, sorted by where the result comes from. -/
theorem getRecordMvcc_eq {fh : RmFileHandle} {tm : TransactionManager} {startTs : ℤ} {rid : Rid}
    (hrid : 0 ≤ rid.slotNo) (hpage : fh.hasPage rid.pageNo) :
    fh.getRecordMvcc tm startTs rid =
      if fh.readsInPlace tm startTs rid then
        .ok (if (tm.effectiveMeta (fh.record rid).tupleMeta).isDeleted then none
          else some (fh.currentView tm rid))
      else if fh.deletedByActive tm rid then .error .transactionAbort
      else .ok (fh.getVisibleVersionFromHistory tm startTs rid) := by
  have hbefore : ∀ ts, tm.isCommittedBeforeReadTs ts startTs = true → ts = 0 ∨ ts < startTs := by
    intro ts h
    by_contra hnot
    rw [not_or, not_lt] at hnot
    simp [TransactionManager.isCommittedBeforeReadTs, hnot.1, hnot.2] at h
  unfold getRecordMvcc
  rw [if_neg (not_not_intro hpage), if_neg (not_lt.mpr hrid)]
  change (if (tm.effectiveMeta (fh.record rid).tupleMeta).ts = 0 then _ else _) = _
  by_cases hplace : fh.readsInPlace tm startTs rid
  · rw [if_pos hplace]
    by_cases hzero : (tm.effectiveMeta (fh.record rid).tupleMeta).ts = 0
    · rw [if_pos hzero]
      rfl
    rw [if_neg hzero]
    by_cases hown : (tm.effectiveMeta (fh.record rid).tupleMeta).ts = startTs
    · rw [if_pos hown, if_pos hown]
      cases (tm.effectiveMeta (fh.record rid).tupleMeta).isDeleted <;> rfl
    have hcommitted := (hplace.resolve_left hzero).resolve_left hown
    have hlt := (hbefore _ hcommitted).resolve_left hzero
    rw [if_neg hown, if_neg hown, if_pos hlt, hcommitted]
    cases (tm.effectiveMeta (fh.record rid).tupleMeta).isDeleted <;> rfl
  · rw [if_neg hplace]
    obtain ⟨hzero, hown, hcommitted⟩ : (tm.effectiveMeta (fh.record rid).tupleMeta).ts ≠ 0 ∧
        (tm.effectiveMeta (fh.record rid).tupleMeta).ts ≠ startTs ∧
        tm.isCommittedBeforeReadTs (tm.effectiveMeta (fh.record rid).tupleMeta).ts startTs = false := by
      simpa [readsInPlace, not_or] using hplace
    rw [if_neg hzero, if_neg hown, if_neg hown, hcommitted]
    by_cases hthrow : fh.deletedByActive tm rid
    · rw [if_pos hthrow]
      obtain ⟨hdel, habort, hactive⟩ := hthrow
      rw [if_pos hdel, if_neg Bool.false_ne_true, habort, if_neg Bool.false_ne_true, if_pos hactive]
      rfl
    · rw [if_neg hthrow]
      cases hdel : (tm.effectiveMeta (fh.record rid).tupleMeta).isDeleted with
      | false =>
        rw [if_neg Bool.false_ne_true, if_neg Bool.false_ne_true]
        split <;> rfl
      | true =>
        rw [if_pos rfl, if_neg Bool.false_ne_true]
        cases habort : tm.isTransactionAborted (tm.effectiveMeta (fh.record rid).tupleMeta).ts with
        | true => rfl
        | false =>
          rw [if_neg Bool.false_ne_true, if_neg fun hactive => hthrow ⟨hdel, habort, hactive⟩]
          rfl

/-- The fallback takes any header with a positive timestamp away and asks no further. -/
theorem currentFallback_of_pos {fh : RmFileHandle} {tm : TransactionManager} {startTs : ℤ} {rid : Rid}
    (hpage : fh.hasPage rid.pageNo) (hpos : 0 < (fh.record rid).tupleMeta.ts) :
    fh.currentFallback tm startTs rid = some ⟨none, (fh.record rid).row⟩ := by
  simp [currentFallback, getRecord, hpage, hpos]

theorem pos_of_not_readsInPlace {fh : RmFileHandle} {tm : TransactionManager} {startTs : ℤ} {rid : Rid}
    (h : ¬fh.readsInPlace tm startTs rid) : 0 < (fh.record rid).tupleMeta.ts := by
  by_contra hpos
  apply h
  refine .inl ?_
  unfold TransactionManager.effectiveMeta
  split
  · rename_i hmeta
    simp only [TransactionManager.hasTupleMeta, Bool.or_eq_true, Bool.and_eq_true, decide_eq_true_eq] at hmeta
    omega
  · rfl

/-- Two states give the same result when they agree on the slot, on the status behind its stamp and
on the history. -/
theorem getRecordMvcc_congr {fh fh' : RmFileHandle} {tm tm' : TransactionManager} {startTs : ℤ}
    {rid : Rid} (hpage : fh.hasPage rid.pageNo) (hpage' : fh'.hasPage rid.pageNo)
    (hrecord : fh'.record rid = fh.record rid) (hnext : tm'.nextTimestamp = tm.nextTimestamp)
    (hcommitted : ∀ ts, ts = (tm.effectiveMeta (fh.record rid).tupleMeta).ts →
      tm'.isCommittedBeforeReadTs ts startTs = tm.isCommittedBeforeReadTs ts startTs)
    (hstatus : ¬fh.readsInPlace tm startTs rid → (fh'.deletedByActive tm' rid ↔ fh.deletedByActive tm rid))
    (hhistory : ¬fh.readsInPlace tm startTs rid → ¬fh.deletedByActive tm rid →
      fh'.getVisibleVersionFromHistory tm' startTs rid = fh.getVisibleVersionFromHistory tm startTs rid) :
    fh'.getRecordMvcc tm' startTs rid = fh.getRecordMvcc tm startTs rid := by
  have hhas : ∀ m, tm'.hasTupleMeta m = tm.hasTupleMeta m := by
    intro m
    unfold TransactionManager.hasTupleMeta
    rw [hnext]
  have hmeta : ∀ m, tm'.effectiveMeta m = tm.effectiveMeta m := by
    intro m
    unfold TransactionManager.effectiveMeta
    rw [hhas]
  have hview : fh'.currentView tm' rid = fh.currentView tm rid := by
    simp only [currentView, hrecord, hhas]
  have hplace : fh'.readsInPlace tm' startTs rid ↔ fh.readsInPlace tm startTs rid := by
    simp only [readsInPlace, hrecord, hmeta, hcommitted _ rfl]
  by_cases hrid : 0 ≤ rid.slotNo
  · rw [getRecordMvcc_eq hrid hpage', getRecordMvcc_eq hrid hpage, hrecord, hmeta, hview]
    by_cases h : fh.readsInPlace tm startTs rid
    · rw [if_pos h, if_pos (hplace.mpr h)]
    · rw [if_neg h, if_neg fun h' => h (hplace.mp h')]
      by_cases hthrow : fh.deletedByActive tm rid
      · rw [if_pos hthrow, if_pos ((hstatus h).mpr hthrow)]
      · rw [if_neg hthrow, if_neg fun h' => hthrow ((hstatus h).mp h'), hhistory h hthrow]
  · simp only [getRecordMvcc, if_neg (not_not_intro hpage), if_neg (not_not_intro hpage'), if_pos (not_le.mp hrid)]

end RmFileHandle
end Rmdb
