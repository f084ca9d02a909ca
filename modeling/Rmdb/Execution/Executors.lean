import Rmdb.Index.Compare
import Rmdb.Index.Delete
import Rmdb.Index.Scan
import Rmdb.Transaction.Store

/-! The INSERT, UPDATE and DELETE executors in MVCC mode. A statement keeps what it has
written when it throws. -/
namespace Rmdb

structure ColMeta where
  name : String
  type : ColType
  len : ℕ
  offset : ℕ
deriving DecidableEq, Repr

structure IndexMeta where
  unique : Bool
  cols : List ColMeta
deriving DecidableEq, Repr

def IndexMeta.colTotLen (index : IndexMeta) : ℕ := (index.cols.map (·.len)).sum

def IndexMeta.compare (index : IndexMeta) : Bytes → Bytes → Ordering :=
  ixCompare (index.cols.map fun col => (col.type, col.len))

/-- The bytes of a column in the data of a row. -/
def ColMeta.field (col : ColMeta) (data : Bytes) : Bytes := (data.drop col.offset).take col.len

def IndexMeta.key (index : IndexMeta) (data : Bytes) : Bytes :=
  index.cols.flatMap fun col => col.field data

structure TabMeta where
  cols : List ColMeta
  indexes : List IndexMeta
  /-- `create_table` refuses an empty column list. -/
  cols_ne_nil : cols ≠ []

structure Database where
  store : Store
  tabs : String → Option TabMeta
  ihs : String → Option (IxIndexHandle Bytes)

abbrev DbM := ExceptT DbError (StateM Database)

def getIndexName (tab : String) (index : IndexMeta) : String :=
  index.cols.foldl (fun name col => name ++ "_" ++ col.name) tab ++ ".idx"

/-- Errors that are exceptions of the program, against those that take it down. -/
def IxError.toDbError : IxError → DbError
  | .uniqueIndexViolation => .rmdb .uniqueIndexViolation
  | .indexEntryNotFound => .rmdb .indexEntryNotFound
  | .noPage => .rmdb .diskRead
  | .invalidColLength => .rmdb .invalidColLength
  | _ => .crash

namespace DbM

def ofIx {α : Type} (x : Except IxError α) : DbM α :=
  MonadExcept.ofExcept (x.mapError IxError.toDbError)

def getStore : DbM Store := do return (← get).store

def modifyStore (f : Store → Store) : DbM Unit := modify fun db => { db with store := f db.store }

def getTable (tab : String) : DbM TabMeta := do
  match (← get).tabs tab with
  | some tabMeta => return tabMeta
  | none => throw (.rmdb .tableNotFound)

/-- `fhs_.at(..)` and `ihs_.at(..)`: nobody catches the `out_of_range`. -/
def fileHandle (tab : String) : DbM RmFileHandle := do
  match (← get).store.fhs tab with
  | some fh => return fh
  | none => throw .crash

def indexHandle (name : String) : DbM (IxIndexHandle Bytes) := do
  match (← get).ihs name with
  | some ih => return ih
  | none => throw .crash

def setIndexHandle (name : String) (ih : IxIndexHandle Bytes) : DbM Unit :=
  modify fun db => { db with ihs := Function.update db.ihs name (some ih) }

end DbM

open DbM

/-! ### Values -/

def Value.type : Value → ColType
  | .int _ => .int
  | .float _ => .float
  | .str _ => .string

/-- `static_cast<float>` and `static_cast<int>` between the two numeric types. The second one is undefined for a
float without an integer part in the range of `int`, which becomes the nearest bound here and a NaN zero. -/
def Value.cast (val : Value) (type : ColType) : Value :=
  match val, type with
  | .int i, .float => .float (Float32.ofInt i.toInt).toBits.toBitVec
  | .float f, .int => .int (Float32.ofBits ⟨f⟩).toInt32.toBitVec
  | val, _ => val

/-- `init_raw` on a value that was converted to the type of the column. -/
def Value.initRaw (val : Value) (col : ColMeta) : Except DbError Bytes :=
  let val := val.cast col.type
  if val.type ≠ col.type then throw (.rmdb (.incompatibleType col.type val.type))
  else match val with
    | .int i => if col.len = 4 then return wordBytes i else throw .crash
    | .float f => if col.len = 4 then return wordBytes f else throw .crash
    | .str s =>
      if col.len < s.length then throw (.rmdb .stringOverflow)
      else return s ++ List.replicate (col.len - s.length) 0

/-- `memcpy` of a column into the data of a row. -/
def ColMeta.write (col : ColMeta) (data raw : Bytes) : Bytes :=
  data.take col.offset ++ raw ++ data.drop (col.offset + raw.length)

/-- The value of a column as a DELETE saves it. -/
def ColMeta.value (col : ColMeta) (data : Bytes) : Value :=
  match col.type with
  | .int => .int (readWord (col.field data))
  | .float => .float (readWord (col.field data))
  | .string => .str (col.field data)

/-- The value of a column as an UPDATE saves it: strings lose the blanks at their end and then all
NULs. -/
def ColMeta.trimmedValue (col : ColMeta) (data : Bytes) : Value :=
  match col.value data with
  | .str s => .str ((s.reverse.dropWhile (· = 32)).reverse.filter (· ≠ 0))
  | val => val

/-- The buffer behind a record view, with the header in front where it was not stripped. -/
def RecordView.data (view : RecordView) : Bytes :=
  match view.header with
  | none => view.row.bytes
  | some m => wordBytes (.ofInt 32 m.ts) ++ wordBytes (.ofInt 32 (m.ts / 4294967296)) ++
      (if m.isDeleted then 1 else 0) :: List.replicate 7 0 ++ view.row.bytes

/-! ### INSERT -/

def encodeRow (recordSize : ℕ) (cols : List ColMeta) (values : List Value) : Except DbError Bytes :=
  (cols.zip values).foldlM
    (fun data (col, val) => do return col.write data (← val.initRaw col))
    (List.replicate (recordSize - tupleMetaSize) 0)

/-- The column of the first unique index over one column. -/
def primaryKeyCol (tabMeta : TabMeta) : Option ColMeta := do
  let index ← tabMeta.indexes.find? fun index => index.unique && index.cols.length = 1
  let keyCol ← index.cols.head?
  tabMeta.cols.find? (·.name = keyCol.name)

def sameKey (col : ColMeta) (a b : Bytes) : Bool :=
  match col.type with
  | .int => readWord (col.field a) = readWord (col.field b)
  | .float =>
    let x := readWord (col.field a)
    let y := readWord (col.field b)
    !floatIsNaN x && !floatIsNaN y && floatCompare x y = .eq
  | .string => col.field a = col.field b

/-- A row with the same key is in the way when it is visible, or when it is someone else's. -/
def checkPrimaryKey (s : Store) (txn : Transaction) (fh : RmFileHandle) (tabMeta : TabMeta)
    (data : Bytes) : Except DbError Unit :=
  match primaryKeyCol tabMeta with
  | none => return ()
  | some col => fh.scanRids.forM fun rid => do
    if sameKey col (fh.record rid).row.bytes data then
      if fh.checkWriteWriteConflict s.txnMgr txn rid then throw .transactionAbort
      if (← fh.getRecordMvcc s.txnMgr txn.startTs rid).isSome then throw (.rmdb .primaryKeyViolation)

def insertIndexEntries (tab : String) (indexes : List IndexMeta) (data : Bytes) (rid : Rid) :
    DbM Unit :=
  indexes.forM fun index => do
    let ih ← indexHandle (getIndexName tab index)
    let (_, ih) ← ofIx (ih.insertEntry index.compare (index.key data) rid)
    setIndexHandle (getIndexName tab index) ih

/-- The part of an INSERT that writes: first the row, then its index entries. -/
def insertRow (txn : Transaction) (tab : String) (tabMeta : TabMeta) (fh : RmFileHandle)
    (data : Bytes) : DbM Unit := do
  let (rid, s) := (← getStore).insertTuple txn tab fh data tabMeta.cols.length
  modifyStore fun _ => s
  tryCatch (insertIndexEntries tab tabMeta.indexes data rid) fun e => do
    let fh ← fileHandle tab
    modifyStore (·.dropInserted txn tab fh rid)
    throw e

def execInsert (txn : Transaction) (tab : String) (values : List Value) : DbM Unit := do
  let tabMeta ← getTable tab
  if values.length ≠ tabMeta.cols.length then throw (.rmdb .invalidValueCount)
  let fh ← fileHandle tab
  let data ← ofExcept (encodeRow fh.recordSize tabMeta.cols values)
  ofExcept (checkPrimaryKey (← getStore) txn fh tabMeta data)
  insertRow txn tab tabMeta fh data

/-! ### UPDATE -/

/-- An assignment; the right-hand side is evaluated on the data of the old version. -/
structure SetClause where
  lhs : String
  rhs : Bytes → Except RmdbErrorKind Value

def applySetClauses (tabMeta : TabMeta) (setClauses : List SetClause) (old data : Bytes) :
    Except DbError Bytes :=
  setClauses.foldlM (fun data set => do
    match tabMeta.cols.find? (·.name = set.lhs) with
    | none => throw (.rmdb .columnNotFound)
    | some col => return col.write data (← (← (set.rhs old).mapError .rmdb).initRaw col)) data

/-- The rows that an UPDATE goes through: used slots whose current data meets the condition,
visible or not. -/
def updateRids (fh : RmFileHandle) (conds : Bytes → Bool) : List Rid :=
  fh.scanRids.filter fun rid => conds (fh.record rid).row.bytes

/-- The log of an UPDATE: the stamp of the record in the slot with the values of the version
that the transaction sees. -/
def updateLog (tabMeta : TabMeta) (raw : RmRecord) (old : RecordView) (prev : Option UndoLink) :
    UndoLog where
  isDeleted := raw.tupleMeta.isDeleted
  modifiedFields := List.replicate tabMeta.cols.length true
  tuple := tabMeta.cols.map fun col => col.trimmedValue old.data
  ts := raw.tupleMeta.ts
  prevVersion := prev.getD .invalid
  source := old.row

def checkUniqueKeys (tab : String) (indexes : List IndexMeta) (old new : Bytes) : DbM Unit :=
  indexes.forM fun index => do
    if index.unique then
      let ih ← indexHandle (getIndexName tab index)
      if index.key new ≠ index.key old then
        if (← ofIx (ih.getValue index.compare (index.key new))).isSome then
          throw (.rmdb .uniqueIndexViolation)

def moveIndexEntries (tab : String) (indexes : List IndexMeta) (rid : Rid) (old new : Bytes) :
    DbM Unit :=
  indexes.forM fun index => do
    let ih ← indexHandle (getIndexName tab index)
    if index.key new ≠ index.key old then
      let (_, ih) ← ofIx (ih.deleteEntry index.compare true (index.key old))
      setIndexHandle (getIndexName tab index) ih
      let (_, ih) ← ofIx (ih.insertEntry index.compare (index.key new) rid)
      setIndexHandle (getIndexName tab index) ih

/-- The new data of a row, with all checks and index changes that precede its installation. -/
def prepareUpdate (tab : String) (tabMeta : TabMeta) (setClauses : List SetClause) (rid : Rid)
    (old data : Bytes) : DbM Bytes := do
  let new ← ofExcept (applySetClauses tabMeta setClauses old data)
  checkUniqueKeys tab tabMeta.indexes old new
  moveIndexEntries tab tabMeta.indexes rid old new
  return new

def updatedRecord (txn : Transaction) (tab : String) (rid : Rid) (data : Bytes) : RmRecord :=
  ⟨⟨txn.startTs, false⟩, ⟨data, txn.txnId, tab, rid⟩, txn.txnId⟩

def updateRow (txn : Transaction) (tab : String) (tabMeta : TabMeta)
    (setClauses : List SetClause) (rid : Rid) : DbM Unit := do
  let s ← getStore
  let fh ← fileHandle tab
  if fh.checkWriteWriteConflict s.txnMgr txn rid then throw .transactionAbort
  match ← ofExcept (fh.getRecordMvcc s.txnMgr txn.startTs rid) with
  | none => if fh.hasPage rid.pageNo then throw .transactionAbort
  | some old =>
    let raw := fh.record rid
    let link := s.txnMgr.nextUndoLink txn.txnId
    modifyStore (·.appendUndoLog txn (updateLog tabMeta raw old (s.txnMgr.getUndoLink rid)))
    let new ← prepareUpdate tab tabMeta setClauses rid old.data raw.row.bytes
    modifyStore (·.installVersion txn tab fh .updateTuple rid link (updatedRecord txn tab rid new))

def execUpdate (txn : Transaction) (tab : String) (setClauses : List SetClause)
    (conds : Bytes → Bool) : DbM Unit := do
  let tabMeta ← getTable tab
  let fh ← fileHandle tab
  (updateRids fh conds).forM (updateRow txn tab tabMeta setClauses)

/-! ### DELETE -/

inductive ScanPlan where
  | seq
  /-- An index scan between two keys; a missing key leaves its side open. -/
  | index (index : IndexMeta) (lower upper : Option Bytes)

def planRids (db : Database) (tab : String) (fh : RmFileHandle) : ScanPlan → Except DbError (List Rid)
  | .seq => return fh.scanRids
  | .index index lower upper =>
    match db.ihs (getIndexName tab index) with
    | none => throw (.rmdb .indexNotFound)
    | some ih => (do
        let (start, stop) ← ih.scanBounds index.compare lower upper
        ih.scanRids stop ih.scanFuel start).mapError IxError.toDbError

/-- The rows that a DELETE goes through: those of the scan that are visible and meet the
condition. -/
def deleteRids (db : Database) (txn : Transaction) (tab : String) (fh : RmFileHandle)
    (conds : Bytes → Bool) (plan : ScanPlan) : Except DbError (List Rid) := do
  (← planRids db tab fh plan).filterM fun rid => do
    return (← fh.getRecordMvcc db.store.txnMgr txn.startTs rid).any fun view => conds view.data

def deleteLog (tabMeta : TabMeta) (raw : RmRecord) (view : RecordView) (prev : Option UndoLink) :
    UndoLog where
  isDeleted := false
  modifiedFields := List.replicate tabMeta.cols.length true
  tuple := tabMeta.cols.map fun col => col.value view.data
  ts := raw.tupleMeta.ts
  prevVersion := prev.getD .invalid
  source := view.row

def deletedRecord (txn : Transaction) (raw : RmRecord) : RmRecord :=
  ⟨⟨txn.startTs, true⟩, raw.row, txn.txnId⟩

/-- The index entries of the row stay. -/
def deleteRow (txn : Transaction) (tab : String) (tabMeta : TabMeta) (rid : Rid) : DbM Unit := do
  let s ← getStore
  let fh ← fileHandle tab
  match ← ofExcept (fh.getRecordMvcc s.txnMgr txn.startTs rid) with
  | none => return ()
  | some view =>
    if fh.checkWriteWriteConflict s.txnMgr txn rid then throw .transactionAbort
    let raw := fh.record rid
    let link := s.txnMgr.nextUndoLink txn.txnId
    let log := deleteLog tabMeta raw view (s.txnMgr.getVersionLink rid)
    modifyStore fun s =>
      (s.appendUndoLog txn log).installVersion txn tab fh .deleteTuple rid link (deletedRecord txn raw)

def execDelete (txn : Transaction) (tab : String) (conds : Bytes → Bool) (plan : ScanPlan) :
    DbM Unit := do
  let tabMeta ← getTable tab
  let fh ← fileHandle tab
  let rids ← ofExcept (deleteRids (← get) txn tab fh conds plan)
  rids.forM (deleteRow txn tab tabMeta)

/-! ### Statements -/

inductive Statement where
  | insert (tab : String) (values : List Value)
  | update (tab : String) (setClauses : List SetClause) (conds : Bytes → Bool)
  | delete (tab : String) (conds : Bytes → Bool) (plan : ScanPlan)

namespace Statement

def tab : Statement → String
  | insert tab _ => tab
  | update tab _ _ => tab
  | delete tab _ _ => tab

def isInsert : Statement → Prop
  | insert _ _ => True
  | update _ _ _ => False
  | delete _ _ _ => False

instance (stmt : Statement) : Decidable stmt.isInsert :=
  match stmt with
  | insert _ _ => isTrue trivial
  | update _ _ _ | delete _ _ _ => isFalse id

def exec (txn : Transaction) : Statement → DbM Unit
  | insert tab values => execInsert txn tab values
  | update tab setClauses conds => execUpdate txn tab setClauses conds
  | delete tab conds plan => execDelete txn tab conds plan

/-- The slots that the statement may write: the free slot an INSERT takes, the rows an UPDATE
or a DELETE goes through. -/
def targets (db : Database) (txn : Transaction) (stmt : Statement) : List Rid :=
  match db.store.fhs stmt.tab, stmt with
  | none, _ => []
  | some fh, insert _ _ => [(fh.insertRecord fun _ => zeroRecord fh.recordSize).1]
  | some fh, update _ _ conds => updateRids fh conds
  | some fh, delete tab conds plan => (deleteRids db txn tab fh conds plan).toOption.getD []

end Statement
end Rmdb
