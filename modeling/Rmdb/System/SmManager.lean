import Rmdb.Execution.Executors
import Rmdb.Lib.Program

/-! Tables and indexes are created and dropped outside of the transactions. -/
namespace Rmdb

open DbM

structure ColDef where
  name : String
  type : ColType
  len : ℕ
deriving DecidableEq, Repr

/-- The columns of a table lie one behind the other. -/
def colMetas : ℕ → List ColDef → List ColMeta
  | _, [] => []
  | offset, col :: cols => ⟨col.name, col.type, col.len, offset⟩ :: colMetas (offset + col.len) cols

theorem colMetas_ne_nil {cols : List ColDef} (h : cols ≠ []) : colMetas 0 cols ≠ [] := by
  cases cols with
  | nil => exact absurd rfl h
  | cons col cols => exact List.cons_ne_nil _ _

/-- A new file, or none, takes the place of the file of a table. The history of the table
starts anew; the version links stay. -/
def Store.setTable (s : Store) (tab : String) (fh : Option RmFileHandle) : Store :=
  { s with
    fhs := Function.update s.fhs tab fh
    history := s.history.filter (·.tab ≠ tab) }

def createTable (tab : String) (colDefs : List ColDef) : DbM Unit := do
  let db ← get
  if tab = "" then throw (.rmdb .tableNotFound)
  if (db.tabs tab).isSome then throw (.rmdb .tableExists)
  if h : colDefs ≠ [] then
    if ¬(colDefs.map (·.name)).Nodup then throw (.rmdb .columnNotFound)
    let recordSize := (colDefs.map (·.len)).sum + tupleMetaSize
    if rmMaxRecordSize < recordSize then throw (.rmdb .invalidRecordSize)
    let tabMeta : TabMeta := ⟨colMetas 0 colDefs, [], colMetas_ne_nil h⟩
    modify fun db => { db with
      tabs := Function.update db.tabs tab (some tabMeta)
      store := db.store.setTable tab (some (.create recordSize)) }
  else throw (.rmdb .invalidValueCount)

/-- The file of an index whose handle is gone is still open, and cannot be destroyed. -/
def dropIndexHandle (indexName : String) : DbM Unit := do
  if ((← get).ihs indexName).isNone then throw (.rmdb .unixError)
  else modify fun db => { db with ihs := Function.update db.ihs indexName none }

def dropTable (tab : String) : DbM Unit := do
  let tabMeta ← getTable tab
  tabMeta.indexes.forM fun index => dropIndexHandle (getIndexName tab index)
  modify fun db => { db with
    tabs := Function.update db.tabs tab none
    store := db.store.setTable tab none }

def setIndexes (tab : String) (tabMeta : TabMeta) (indexes : List IndexMeta) : DbM Unit :=
  modify fun db => { db with tabs := Function.update db.tabs tab (some { tabMeta with indexes }) }

def newIndexMeta (tabMeta : TabMeta) (colNames : List String) (unique : Bool) :
    Except DbError IndexMeta :=
  if tabMeta.indexes.any fun index => index.cols.map (·.name) = colNames then
    throw (.rmdb .indexExists)
  else if ∀ name ∈ colNames, ∃ col ∈ tabMeta.cols, col.name = name then
    return ⟨unique, colNames.filterMap fun name => tabMeta.cols.find? (·.name = name)⟩
  else throw (.rmdb .columnNotFound)

def createIndexHandle (indexName : String) (index : IndexMeta) : DbM Unit := do
  if ((← get).ihs indexName).isSome then throw (.rmdb .indexExists)
  else setIndexHandle indexName (← ofIx (IxIndexHandle.createIndex index.colTotLen index.unique))

/-- An entry for every row in the file, visible or not. -/
def fillIndex (indexName : String) (index : IndexMeta) (fh : RmFileHandle) : DbM Unit :=
  fh.scanRids.forM fun rid => do
    let ih ← indexHandle indexName
    let (_, ih) ← ofIx (ih.insertEntry index.compare (index.key (fh.record rid).row.bytes) rid)
    setIndexHandle indexName ih

/-- When two rows share a key, the handle is thrown away; then the file of the index is to be destroyed while it
is open, and the index stays in the list. -/
def refuseIndex (indexName : String) (e : DbError) : DbM Unit := do
  if e = .rmdb .uniqueIndexViolation then
    modify fun db => { db with ihs := Function.update db.ihs indexName none }
    throw (.rmdb .unixError)
  else throw e

theorem refuseIndex_ne_ok (indexName : String) (e : DbError) (db : Database) :
    (Program.runFrom (refuseIndex indexName e) db).1 ≠ .ok () := by
  unfold refuseIndex
  split
  · intro h
    cases h
  · intro h
    cases h

def createIndex (tab : String) (colNames : List String) (unique : Bool) : DbM Unit := do
  let tabMeta ← getTable tab
  let index ← MonadExcept.ofExcept (newIndexMeta tabMeta colNames unique)
  createIndexHandle (getIndexName tab index) index
  setIndexes tab tabMeta (tabMeta.indexes ++ [index])
  let fh ← fileHandle tab
  tryCatch (fillIndex (getIndexName tab index) index fh)
    (refuseIndex (getIndexName tab index))

end Rmdb
