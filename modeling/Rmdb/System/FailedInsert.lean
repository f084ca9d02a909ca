import Rmdb.System.Run

/-! What an INSERT leaves when it throws. The row count of a table is in the meta data; the executor
works on a copy of it. -/
namespace Rmdb

open Program DbM

structure CountedDatabase where
  db : Database
  rowCount : String → ℤ

abbrev CountedM := ExceptT DbError (StateM CountedDatabase)

/-- A program that does not see the row counts. -/
def DbM.onCounted {α : Type} (x : DbM α) : CountedM α := fun c =>
  ((runFrom x c.db).1, { c with db := (runFrom x c.db).2 })

instance : MonadLift DbM CountedM := ⟨DbM.onCounted⟩

theorem runFrom_onCounted {α : Type} (x : DbM α) (c : CountedDatabase) :
    runFrom (liftM x : CountedM α) c = ((runFrom x c.db).1, { c with db := (runFrom x c.db).2 }) := rfl

theorem DbM.refines_onCounted {α : Type} (x : DbM α) :
    Refines CountedDatabase.db (liftM x : CountedM α) x := fun _ => rfl

def updateTableRowCount (tab : String) (rowCount : ℤ) : CountedM Unit := do
  if ((← getThe CountedDatabase).db.tabs tab).isSome then
    modifyThe CountedDatabase fun c => { c with rowCount := Function.update c.rowCount tab rowCount }

theorem runFrom_updateTableRowCount {tab : String} {rowCount : ℤ} {c : CountedDatabase} {tabMeta : TabMeta}
    (htab : c.db.tabs tab = some tabMeta) :
    runFrom (updateTableRowCount tab rowCount) c =
      (.ok ⟨⟩, { c with rowCount := Function.update c.rowCount tab rowCount }) := by
  have hsome : (c.db.tabs tab).isSome = true := by rw [htab, Option.isSome_some]
  have hget : runFrom (getThe CountedDatabase : CountedM CountedDatabase) c = (.ok c, c) := rfl
  simp only [updateTableRowCount, runFrom_bind, hget, hsome, if_true]
  rfl

theorem updateTableRowCount_hidden (tab : String) (rowCount : ℤ) (c : CountedDatabase) :
    ∃ u, (runFrom (updateTableRowCount tab rowCount) c).1 = .ok u ∧
      (runFrom (updateTableRowCount tab rowCount) c).2.db = c.db := by
  have hget : runFrom (getThe CountedDatabase : CountedM CountedDatabase) c = (.ok c, c) := rfl
  simp only [updateTableRowCount, runFrom_bind, hget]
  split <;> exact ⟨⟨⟩, rfl, rfl⟩

namespace InsertExecutor

variable {txn : Transaction} {tab : String} {values : List Value} {tabMeta : TabMeta} {fh : RmFileHandle}
  {data : Bytes} {c c' : CountedDatabase} {e : DbError}

/-- When an index refuses the row, only its slot is given back. -/
def insertIntoIndexes (txn : Transaction) (tab : String) (tabMeta : TabMeta) (data : Bytes) (rid : Rid) : DbM Unit :=
  tryCatch (insertIndexEntries tab tabMeta.indexes data rid) fun e => do
    let fh ← fileHandle tab
    modifyStore (·.dropInserted txn tab fh rid)
    throw e

/-- `rowCount` is the count in the executor's copy of the meta data. -/
def next (txn : Transaction) (tab : String) (tabMeta : TabMeta) (rowCount : ℤ) (fh : RmFileHandle)
    (values : List Value) : CountedM Unit := do
  let data ← ofExcept (encodeRow fh.recordSize tabMeta.cols values)
  ofExcept (checkPrimaryKey (← getStore) txn fh tabMeta data)
  let (rid, s) := (← getStore).insertTuple txn tab fh data tabMeta.cols.length
  modifyStore fun _ => s
  updateTableRowCount tab (rowCount + 1)
  insertIntoIndexes txn tab tabMeta data rid

def execute (txn : Transaction) (tab : String) (values : List Value) : CountedM Unit := do
  let tabMeta ← getTable tab
  let rowCount := (← getThe CountedDatabase).rowCount tab
  if values.length ≠ tabMeta.cols.length then throw (.rmdb .invalidValueCount)
  let fh ← fileHandle tab
  next txn tab tabMeta rowCount fh values

/-- Without the row counts it is the INSERT of the other modules. -/
theorem execute_refines : Refines CountedDatabase.db (execute txn tab values) (execInsert txn tab values) := by
  refine Refines.bind (refines_onCounted _) fun tabMeta => ?_
  refine Refines.hidden_bind (fun c => ⟨c, rfl, rfl⟩) fun c => ?_
  split
  · exact Refines.throw _
  refine Refines.bind (refines_onCounted _) fun fh => ?_
  refine Refines.bind (Refines.ofExcept _) fun data => ?_
  refine Refines.bind (refines_onCounted _) fun s => ?_
  refine Refines.bind (Refines.ofExcept _) fun _ => ?_
  refine Refines.bind (refines_onCounted _) fun s => ?_
  refine Refines.bind (refines_onCounted _) fun _ => ?_
  exact Refines.hidden_bind (updateTableRowCount_hidden tab _) fun _ => refines_onCounted _

/-- The row of an INSERT passes the checks that precede its placement. -/
structure Admits (db : Database) (txn : Transaction) (tab : String) (values : List Value) (tabMeta : TabMeta)
    (fh : RmFileHandle) (data : Bytes) : Prop where
  table : db.tabs tab = some tabMeta
  valueCount : values.length = tabMeta.cols.length
  file : db.store.fhs tab = some fh
  encoded : encodeRow fh.recordSize tabMeta.cols values = .ok data
  primaryKey : checkPrimaryKey db.store txn fh tabMeta data = .ok ()

/-- The slot of the new row. -/
def slot (txn : Transaction) (tab : String) (fh : RmFileHandle) (data : Bytes) : Rid :=
  (fh.insertRecord (Store.insertedRecord txn tab data)).1

/-- The state in which the indexes are tried. -/
def placed (c : CountedDatabase) (txn : Transaction) (tab : String) (tabMeta : TabMeta) (fh : RmFileHandle)
    (data : Bytes) : CountedDatabase where
  db := { c.db with store := (c.db.store.insertTuple txn tab fh data tabMeta.cols.length).2 }
  rowCount := Function.update c.rowCount tab (c.rowCount tab + 1)

/-- Some index of the table refuses the key of the row. -/
def IndexRejects (c : CountedDatabase) (txn : Transaction) (tab : String) (values : List Value) : Prop :=
  ∃ tabMeta fh data, Admits c.db txn tab values tabMeta fh data ∧
    ∃ e, (runFrom (insertIndexEntries tab tabMeta.indexes data (slot txn tab fh data))
      (placed c txn tab tabMeta fh data).db).1 = .error e

theorem execute_of_admits (h : Admits c.db txn tab values tabMeta fh data) :
    runFrom (execute txn tab values) c =
      runFrom (liftM (insertIntoIndexes txn tab tabMeta data (slot txn tab fh data)) : CountedM Unit)
        (placed c txn tab tabMeta fh data) := by
  have hget : runFrom (getThe CountedDatabase : CountedM CountedDatabase) c = (.ok c, c) := rfl
  simp only [execute, next, runFrom_bind, runFrom_onCounted, runFrom_getTable, h.table, hget, h.valueCount,
    ne_eq, not_true_eq_false, if_false, runFrom_fileHandle, h.file, runFrom_ofExcept, h.encoded,
    runFrom_getStore, h.primaryKey, runFrom_modifyStore]
  rw [runFrom_updateTableRowCount (by exact h.table)]
  rfl

theorem execute_of_not_admits (h : ∀ tabMeta fh data, ¬Admits c.db txn tab values tabMeta fh data) :
    ∃ e, runFrom (execute txn tab values) c = (.error e, c) := by
  have hget : runFrom (getThe CountedDatabase : CountedM CountedDatabase) c = (.ok c, c) := rfl
  simp only [execute, runFrom_bind, runFrom_onCounted, runFrom_getTable]
  cases htab : c.db.tabs tab with
  | none => exact ⟨_, rfl⟩
  | some tabMeta =>
    simp only [hget]
    by_cases hcount : values.length = tabMeta.cols.length
    · simp only [hcount, ne_eq, not_true_eq_false, if_false, runFrom_bind, runFrom_onCounted, runFrom_fileHandle]
      cases hfh : c.db.store.fhs tab with
      | none => exact ⟨_, rfl⟩
      | some fh =>
        simp only [next, runFrom_bind, runFrom_ofExcept]
        cases hdata : encodeRow fh.recordSize tabMeta.cols values with
        | error e => exact ⟨_, rfl⟩
        | ok data =>
          simp only [runFrom_onCounted, runFrom_getStore]
          cases hkey : checkPrimaryKey c.db.store txn fh tabMeta data with
          | error e => exact ⟨_, rfl⟩
          | ok _ => exact absurd ⟨htab, hcount, hfh, hdata, hkey⟩ (h tabMeta fh data)
    · simp only [hcount, ne_eq, not_false_eq_true, if_true, runFrom_bind, runFrom_throw]
      exact ⟨_, rfl⟩

/-- When an index refuses the row, its slot is freed and the error goes on. -/
theorem insertIntoIndexes_of_error {db : Database} {rid : Rid} (hfh : db.store.fhs tab = some fh)
    (he : (runFrom (insertIndexEntries tab tabMeta.indexes data rid) db).1 = .error e) :
    runFrom (insertIntoIndexes txn tab tabMeta data rid) db =
      (.error e, { (runFrom (insertIndexEntries tab tabMeta.indexes data rid) db).2 with
        store := db.store.dropInserted txn tab fh rid }) := by
  obtain ⟨hstore, -⟩ := insertIndexEntries_same tab tabMeta.indexes data rid db
  rw [insertIntoIndexes, runFrom_tryCatch]
  generalize runFrom (insertIndexEntries tab tabMeta.indexes data rid) db = r at he hstore
  obtain ⟨_, db'⟩ := r
  subst he
  dsimp only at hstore
  simp only [runFrom_bind, runFrom_fileHandle, hstore, hfh, runFrom_modifyStore, runFrom_throw]

theorem insertIntoIndexes_of_ok {db : Database} {rid : Rid}
    (h : (runFrom (insertIndexEntries tab tabMeta.indexes data rid) db).1 = .ok ⟨⟩) :
    (runFrom (insertIntoIndexes txn tab tabMeta data rid) db).1 = .ok ⟨⟩ := by
  rw [insertIntoIndexes, runFrom_tryCatch]
  generalize runFrom (insertIndexEntries tab tabMeta.indexes data rid) db = r at h
  obtain ⟨_, db'⟩ := r
  subst h
  rfl

/-- Heap, row count, versions and indexes are as before the statement. -/
structure NoTrace (tab : String) (c c' : CountedDatabase) : Prop where
  slots : ∀ rid, c'.db.store.slot tab rid = c.db.store.slot tab rid
  bitmap : ∀ rid, c'.db.store.occupied tab rid = c.db.store.occupied tab rid
  rowCount : c'.rowCount tab = c.rowCount tab
  versionLinks : ∀ rid, c'.db.store.txnMgr.versionInfo rid = c.db.store.txnMgr.versionInfo rid
  undoLogs : ∀ txnId, (c'.db.store.txnMgr.getTransaction txnId).map (·.undoLogs) =
    (c.db.store.txnMgr.getTransaction txnId).map (·.undoLogs)
  entries : ∀ name cmp key, (c'.db.ihs name).map (·.getValue cmp key) = (c.db.ihs name).map (·.getValue cmp key)

theorem NoTrace.refl (tab : String) (c : CountedDatabase) : NoTrace tab c c :=
  ⟨fun _ => rfl, fun _ => rfl, rfl, fun _ => rfl, fun _ => rfl, fun _ _ _ => rfl⟩

/-- The state that an INSERT leaves when an index refuses its row. -/
def refused (c : CountedDatabase) (txn : Transaction) (tab : String) (tabMeta : TabMeta) (fh : RmFileHandle)
    (data : Bytes) : CountedDatabase :=
  let c := placed c txn tab tabMeta fh data
  let rid := slot txn tab fh data
  { c with
    db := { (runFrom (insertIndexEntries tab tabMeta.indexes data rid) c.db).2 with
      store := c.db.store.dropInserted txn tab (fh.insertRecord (Store.insertedRecord txn tab data)).2 rid } }

theorem execute_of_rejects (h : Admits c.db txn tab values tabMeta fh data)
    (he : (runFrom (insertIndexEntries tab tabMeta.indexes data (slot txn tab fh data))
      (placed c txn tab tabMeta fh data).db).1 = .error e) :
    runFrom (execute txn tab values) c = (.error e, refused c txn tab tabMeta fh data) := by
  have hfh : (placed c txn tab tabMeta fh data).db.store.fhs tab =
      some (fh.insertRecord (Store.insertedRecord txn tab data)).2 := Function.update_self ..
  rw [execute_of_admits h, runFrom_onCounted, insertIntoIndexes_of_error hfh he]
  rfl

theorem refused_rowCount : (refused c txn tab tabMeta fh data).rowCount tab = c.rowCount tab + 1 :=
  Function.update_self ..

theorem rejects_or_unchanged (hrun : runFrom (execute txn tab values) c = (.error e, c')) :
    IndexRejects c txn tab values ∨ c' = c := by
  by_cases hadmits : ∃ tabMeta fh data, Admits c.db txn tab values tabMeta fh data
  · obtain ⟨tabMeta, fh, data, hadmits⟩ := hadmits
    rw [execute_of_admits hadmits, runFrom_onCounted] at hrun
    cases hentries : (runFrom (insertIndexEntries tab tabMeta.indexes data (slot txn tab fh data))
      (placed c txn tab tabMeta fh data).db).1 with
    | error e' => exact .inl ⟨tabMeta, fh, data, hadmits, e', hentries⟩
    | ok u =>
      rw [insertIntoIndexes_of_ok hentries] at hrun
      cases hrun
  · obtain ⟨e', hsame⟩ := execute_of_not_admits fun tabMeta fh data h => hadmits ⟨tabMeta, fh, data, h⟩
    rw [hsame] at hrun
    exact .inr (Prod.mk.inj hrun).2.symm

/-- An INSERT that throws leaves no trace if and only if it was no index that refused its row. -/
theorem noTrace_iff (hrun : runFrom (execute txn tab values) c = (.error e, c')) :
    NoTrace tab c c' ↔ ¬IndexRejects c txn tab values := by
  constructor
  · rintro htrace ⟨tabMeta, fh, data, hadmits, e', he⟩
    rw [execute_of_rejects hadmits he] at hrun
    obtain ⟨-, rfl⟩ := Prod.mk.inj hrun
    have hcount := htrace.rowCount
    rw [refused_rowCount] at hcount
    omega
  · intro hnone
    obtain hrejects | rfl := rejects_or_unchanged hrun
    · exact absurd hrejects hnone
    · exact NoTrace.refl tab c'

/-- A table with a unique index on both columns, the row (1, 5) in it, and transaction 1 that has
begun. -/
def uniqueRow : Option CountedDatabase :=
  ((Database.emptyTables 1 ["t"]).run (fun _ _ => True)
    [.createIndex "t" ["a", "b"] true, .begin, .stmt 0 (.insert "t" [.int 1, .int 5]), .commit 0, .begin]).map
    fun db => ⟨db, fun _ => 1⟩

private theorem uniqueRow_insert : ∃ c txn c', uniqueRow = some c ∧ c.db.activeTxn 1 = some txn ∧
    runFrom (execute txn "t" [.int 1, .int 5]) c = (.error (.rmdb .uniqueIndexViolation), c') ∧
    c'.rowCount "t" ≠ c.rowCount "t" := by
  have hrun : (uniqueRow.any fun c => (c.db.activeTxn 1).any fun txn =>
      let r := runFrom (execute txn "t" [.int 1, .int 5]) c
      (match r.1 with
        | .ok _ => false
        | .error e => e = .rmdb .uniqueIndexViolation) && r.2.rowCount "t" ≠ c.rowCount "t") = true := by
    decide +kernel
  simp only [Option.any_eq_true, Bool.and_eq_true, decide_eq_true_eq] at hrun
  obtain ⟨c, hc, txn, htxn, hthrown, hcount⟩ := hrun
  refine ⟨c, txn, _, hc, htxn, Prod.ext ?_ rfl, hcount⟩
  split at hthrown
  · cases hthrown
  · rename_i e he
    rw [he, of_decide_eq_true hthrown]

/-- The second INSERT of a row that two columns make unique leaves its count behind. -/
theorem noTrace_iff_uniqueRow : ∃ c txn c', uniqueRow = some c ∧ c.db.activeTxn 1 = some txn ∧
    runFrom (execute txn "t" [.int 1, .int 5]) c = (.error (.rmdb .uniqueIndexViolation), c') ∧
    IndexRejects c txn "t" [.int 1, .int 5] := by
  obtain ⟨c, txn, c', hc, htxn, hrun, hcount⟩ := uniqueRow_insert
  refine ⟨c, txn, c', hc, htxn, hrun, ?_⟩
  by_contra hnone
  exact hcount ((noTrace_iff hrun).mpr hnone).rowCount

theorem not_noTrace : ¬∀ (c c' : CountedDatabase) (txn : Transaction) (tab : String) (values : List Value)
    (e : DbError), IndexRejects c txn tab values → runFrom (execute txn tab values) c = (.error e, c') →
    NoTrace tab c c' := by
  intro hclaim
  obtain ⟨c, txn, c', -, -, hrun, hcount⟩ := uniqueRow_insert
  obtain hrejects | rfl := rejects_or_unchanged hrun
  · exact hcount (hclaim c c' txn "t" _ _ hrejects hrun).rowCount
  · exact hcount rfl

end InsertExecutor
end Rmdb
