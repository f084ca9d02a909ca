import Rmdb.Index.Correctness
import Rmdb.System.CatalogInvariant
import Rmdb.Transaction.Manager

/-! What a CREATE INDEX leaves when two rows share a key. The index is registered, and its file open,
before the first row goes in. -/
namespace Rmdb.Catalog

open Program

inductive DdlType where
  | createTable
  | dropTable
  | createIndex
  | dropIndex
deriving DecidableEq

structure DdlRecord where
  ddlType : DdlType
  tabName : String
  colNames : List String
  isUnique : Bool
deriving DecidableEq

/-- A transaction, as far as the changes of the catalog go. -/
structure DdlTxn where
  txnMode : Bool
  state : TransactionState
  ddlSet : List DdlRecord
deriving DecidableEq

/-- The records are kept for a transaction that the client has begun. -/
def DdlTxn.Records (txn : DdlTxn) : Prop := txn.txnMode = true ∧ txn.state ≠ .aborted

instance (txn : DdlTxn) : Decidable txn.Records := inferInstanceAs (Decidable (_ ∧ _))

def DdlTxn.addDdlRecord (txn : DdlTxn) (record : DdlRecord) : DdlTxn :=
  if txn.Records then { txn with ddlSet := txn.ddlSet ++ [record] } else txn

structure Session where
  manager : SmManager
  txn : Option DdlTxn

abbrev SessionM := ExceptT SmError (StateM Session)

def SmM.onSession {α : Type} (x : SmM α) : SessionM α := fun s =>
  ((runFrom x s.manager).1, { s with manager := (runFrom x s.manager).2 })

theorem runFrom_onSession {α : Type} (x : SmM α) (s : Session) :
    runFrom x.onSession s = ((runFrom x s.manager).1, { s with manager := (runFrom x s.manager).2 }) := rfl

theorem SmM.refines_onSession {α : Type} (x : SmM α) : Refines Session.manager x.onSession x := fun _ => rfl

/-! The rows of the table. -/

/-- The columns of a record, one behind the other. -/
def rowKey (mvcc : Bool) (cols : List ColMeta) (record : Bytes) : Bytes :=
  cols.flatMap fun col =>
    (record.drop ((if mvcc then tupleMetaSize else 0) + col.offset.toInt.toNat)).take col.len.toInt.toNat

/-- What the insertion of the rows into the new index throws. `cmp` compares two keys with these
columns, and `rows` come from the scan of the record file. -/
def insertRows (cmp : Bytes → Bytes → Ordering) (mvcc : Bool) (cols : List ColMeta) (unique : Bool)
    (rows : List (Rid × Bytes)) : Option SmError :=
  let filled : Except IxError (IxIndexHandle Bytes) := do
    let ih ← IxIndexHandle.createIndex (totLen cols).toInt.toNat unique
    ih.insertEntries cmp (rows.map fun row => (rowKey mvcc cols row.2, row.1))
  match filled with
  | .ok _ => none
  | .error .uniqueIndexViolation => some .uniqueIndexViolation
  | .error _ => some .crash

namespace Session

variable {cmp : Bytes → Bytes → Ordering} {mvcc unique : Bool} {tab : String} {colNames : List String} {fd fd' : ℤ}
  {rows : List (Rid × Bytes)} {s : Session} {s' : SmManager} {tabMeta : TabMeta} {cols : List ColMeta}

def createIndex (cmp : Bytes → Bytes → Ordering) (mvcc : Bool) (tab : String) (colNames : List String)
    (unique : Bool) (fd fd' : ℤ) (rows : List (Rid × Bytes)) : SessionM Unit := do
  let registered ← (registerIndex tab colNames unique fd fd').onSession
  modify fun s => { s with txn := s.txn.map (·.addDdlRecord ⟨.createIndex, tab, colNames, unique⟩) }
  (fillIndex tab registered.1 registered.2 (insertRows cmp mvcc registered.2 unique rows)).onSession

/-- Without the transaction it is the CREATE INDEX on the catalog, with the rows for what the filling
throws. -/
theorem createIndex_refines : Refines Session.manager (createIndex cmp mvcc tab colNames unique fd fd' rows)
    (registerIndex tab colNames unique fd fd' >>= fun registered =>
      fillIndex tab registered.1 registered.2 (insertRows cmp mvcc registered.2 unique rows)) := by
  refine Refines.bind (SmM.refines_onSession _) fun registered => ?_
  exact Refines.hidden_bind (fun s => ⟨⟨⟩, rfl, rfl⟩) fun _ => SmM.refines_onSession _

/-- The index could be registered, and then a row came whose key was there already. -/
def HitsEqualKeys (cmp : Bytes → Bytes → Ordering) (mvcc : Bool) (tab : String) (colNames : List String)
    (unique : Bool) (fd fd' : ℤ) (rows : List (Rid × Bytes)) (s : Session) : Prop :=
  ∃ tabMeta cols registered, runFrom (registerIndex tab colNames unique fd fd') s.manager =
      (.ok (tabMeta, cols), registered) ∧
    registered.fhs tab ≠ none ∧ insertRows cmp mvcc cols unique rows = some .uniqueIndexViolation

/-- Nothing has changed, and the error names the shared key. -/
structure FailsCleanly (s s' : Session) (result : Except SmError Unit) : Prop where
  error : result = .error .uniqueIndexViolation
  tables : s'.manager.db.tabs = s.manager.db.tabs
  handles : s'.manager.ihs = s.manager.ihs
  files : s'.manager.disk.isFile = s.manager.disk.isFile
  ddlSet : s'.txn.map DdlTxn.ddlSet = s.txn.map DdlTxn.ddlSet

/-- The file of the index is still open when it is to be destroyed. -/
theorem fillIndex_refused {m : SmManager} {index : String} (hindex : getIndexName tab (cols.map (·.name)) = index)
    (hhandle : m.fhs tab ≠ none) (hfile : m.disk.isFile index) (hopen : m.disk.path2fd index = some fd) :
    runFrom (fillIndex tab tabMeta cols (some .uniqueIndexViolation)) m =
      (.error (.disk .unixError), { m with ihs := Function.update m.ihs index none }) := by
  subst hindex
  have hdestroy : runFrom (DiskManager.destroyFile (getIndexName tab (cols.map (·.name)))) m.disk =
      (.error .unixError, m.disk) := by
    simp only [DiskManager.destroyFile, runFrom_bind, runFrom_get, hfile, hopen, not_true_eq_false, if_false,
      runFrom_throw]
  simp [fillIndex, check, ixDestroyIndex, runFrom_onDisk, runFrom_bind, hdestroy, hhandle, hfile, Except.mapError]

/-- What is left is all of the index but its handle. -/
theorem createIndex_aftermath (h : HitsEqualKeys cmp mvcc tab colNames unique fd fd' rows s) :
    let run := runFrom (createIndex cmp mvcc tab colNames unique fd fd' rows) s
    ∃ tabMeta registered, s.manager.db.tabs[tab]? = some tabMeta ∧
      registered.indexes.length = tabMeta.indexes.length + 1 ∧
      s.manager.disk.isFile (getIndexName tab colNames) = false ∧
      run.1 = .error (.disk .unixError) ∧
      run.2.manager.db.tabs = s.manager.db.tabs.insert tab registered ∧
      run.2.manager.ihs = s.manager.ihs ∧
      run.2.manager.disk.isFile (getIndexName tab colNames) = true ∧
      run.2.txn = s.txn.map (·.addDdlRecord ⟨.createIndex, tab, colNames, unique⟩) := by
  obtain ⟨registered, cols, m, hregister, hhandle, hinsert⟩ := h
  obtain ⟨tabMeta, _, tabCols, handle, disk, htab, -, hmapM, hfree, hnew, -, -, hopen, hfile, heq, rfl⟩ :=
    registerIndex_ok hregister
  obtain ⟨hregistered, rfl⟩ := Prod.mk.inj heq
  have hnames : getIndexName tab (cols.map (·.name)) = getIndexName tab colNames := by rw [(getCols_ok hmapM).1]
  have hrun : runFrom (createIndex cmp mvcc tab colNames unique fd fd' rows) s = (.error (.disk .unixError), {
      manager := { s.manager with
        db := { s.manager.db with tabs := s.manager.db.tabs.insert tab registered }
        ihs := Function.update (Function.update s.manager.ihs (getIndexName tab colNames) (some handle))
          (getIndexName tab colNames) none
        disk }
      txn := s.txn.map (·.addDdlRecord ⟨.createIndex, tab, colNames, unique⟩) }) := by
    simp only [createIndex, runFrom_bind, runFrom_onSession, hregister, runFrom_modify, hinsert]
    rw [fillIndex_refused hnames hhandle hfile hopen]
  refine ⟨tabMeta, registered, htab, ?_, hnew, ?_⟩
  · rw [hregistered, List.length_append, List.length_singleton]
  rw [hrun]
  refine ⟨rfl, rfl, ?_, hfile, rfl⟩
  rw [Function.update_idem, Function.update_eq_self_iff, hfree]

/-- A CREATE INDEX that meets two rows with one key never leaves the catalog as it was. The handles are as
before; the list of the indexes and the files on disk are not, nor is the record of a transaction that the
client has begun, and the error is that of a file which is open. -/
theorem createIndex_not_failsCleanly (h : HitsEqualKeys cmp mvcc tab colNames unique fd fd' rows s) :
    let run := runFrom (createIndex cmp mvcc tab colNames unique fd fd' rows) s
    ¬FailsCleanly s run.2 run.1 ∧ run.1 = .error (.disk .unixError) ∧
      (run.2.manager.db.tabs[tab]?.map (·.indexes)) ≠ s.manager.db.tabs[tab]?.map (·.indexes) ∧
      run.2.manager.ihs = s.manager.ihs ∧ run.2.manager.disk.isFile ≠ s.manager.disk.isFile ∧
      (run.2.txn.map DdlTxn.ddlSet = s.txn.map DdlTxn.ddlSet ↔ ∀ txn ∈ s.txn, ¬txn.Records) := by
  obtain ⟨tabMeta, registered, htab, hlength, hnew, herror, htabs, hihs, hfile, htxn⟩ := createIndex_aftermath h
  refine ⟨?_, herror, ?_, hihs, ?_, ?_⟩
  · intro hclean
    have hsame := herror.symm.trans hclean.error
    cases hsame
  · intro hsame
    rw [htabs, htab, Std.ExtTreeMap.getElem?_insert_self, Option.map_some, Option.map_some, Option.some.injEq] at hsame
    rw [hsame] at hlength
    omega
  · intro hsame
    rw [hsame, hnew] at hfile
    cases hfile
  · rw [htxn, Option.map_map]
    cases s.txn with
    | none => simp
    | some txn =>
      simp only [Option.map_some, Function.comp_apply, Option.some.injEq, Option.mem_def, forall_eq']
      by_cases hrecords : txn.Records <;> simp [DdlTxn.addDdlRecord, hrecords]

/-- A table `t` with one column, in a transaction that the client has begun. -/
def oneTable : Session where
  manager := (runFrom (createTable "t" [⟨"a", .int, 4⟩] true 3 3) (.start "db" 0 SmManager.emptyDisk)).2
  txn := some ⟨true, .growing, []⟩

/-- Two rows that are zero throughout. -/
def equalRows : List (Rid × Bytes) := [(⟨1, 0⟩, List.replicate 20 0), (⟨1, 1⟩, List.replicate 20 0)]

theorem hitsEqualKeys_equalRows :
    HitsEqualKeys (ixCompare [(.int, 4)]) true "t" ["a"] true 4 4 equalRows oneTable :=
  ⟨_, _, _, rfl, nofun, rfl⟩

/-- The violation is replaced by the error of the cleanup, and the index stays in the list. -/
theorem createIndex_equalRows : ∃ s' tabMeta,
    HitsEqualKeys (ixCompare [(.int, 4)]) true "t" ["a"] true 4 4 equalRows oneTable ∧
      runFrom (createIndex (ixCompare [(.int, 4)]) true "t" ["a"] true 4 4 equalRows) oneTable =
        (.error (.disk .unixError), s') ∧
      s'.manager.db.tabs["t"]? = some tabMeta ∧ tabMeta.indexes.map (·.colNames) = [["a"]] ∧
      ¬FailsCleanly oneTable s' (.error (.disk .unixError)) :=
  ⟨_, _, hitsEqualKeys_equalRows, rfl, rfl, rfl, fun hclean => nomatch hclean.error⟩

theorem createIndex_not_failsCleanly_equalRows :
    ¬FailsCleanly oneTable
      (runFrom (createIndex (ixCompare [(.int, 4)]) true "t" ["a"] true 4 4 equalRows) oneTable).2
      (runFrom (createIndex (ixCompare [(.int, 4)]) true "t" ["a"] true 4 4 equalRows) oneTable).1 :=
  (createIndex_not_failsCleanly hitsEqualKeys_equalRows).1

end Session
end Rmdb.Catalog
