import Mathlib.Logic.Relation
import Rmdb.Execution.Executors
import Rmdb.Lib.Program

/-! What a statement can do to the store: a run of an executor, also one that throws, is a
sequence of the four steps below. -/
namespace Rmdb

open Program

/-- The transaction object of the caller agrees with the transaction table. -/
def Store.Runs (s : Store) (txn : Transaction) : Prop :=
  ∃ cur, s.txnMgr.getTransaction txn.txnId = some cur ∧ cur.startTs = txn.startTs ∧
    cur.state = txn.state

/-- The undo log and the new record of an UPDATE or a DELETE that sees `old` in a slot. -/
inductive Overwrite (tabMeta : TabMeta) (s : Store) (txn : Transaction) (tab : String)
    (raw : RmRecord) (rid : Rid) (old : RecordView) : WType → UndoLog → RmRecord → Prop where
  | update (data : Bytes) :
    Overwrite tabMeta s txn tab raw rid old .updateTuple
      (updateLog tabMeta raw old (s.txnMgr.getUndoLink rid)) (updatedRecord txn tab rid data)
  | delete :
    Overwrite tabMeta s txn tab raw rid old .deleteTuple
      (deleteLog tabMeta raw old (s.txnMgr.getVersionLink rid)) (deletedRecord txn raw)

/-- What the executors have checked before they overwrite a slot. -/
structure MayOverwrite (s : Store) (txn : Transaction) (tab : String) (fh : RmFileHandle) (rid : Rid)
    (old : RecordView) : Prop where
  runs : s.Runs txn
  file : s.fhs tab = some fh
  noConflict : fh.checkWriteWriteConflict s.txnMgr txn rid = false
  visible : fh.getRecordMvcc s.txnMgr txn.startTs rid = .ok (some old)

/-- One step of a statement of `txn` on `tab` that started in `s₀` and writes slots in `target`
only. An insertion is the first step of its statement. -/
inductive StmtStep (tabs : String → Option TabMeta) (txn : Transaction) (tab : String)
    (target : Rid → Prop) (inserting : Prop) (s₀ s : Store) : Store → Prop where
  | insert {fh : RmFileHandle} {tabMeta : TabMeta} (data : Bytes) (hinserting : inserting)
    (hfirst : s = s₀) (hruns : s.Runs txn)
    (hfh : s.fhs tab = some fh) (htab : tabs tab = some tabMeta)
    (htarget : target (fh.insertRecord (Store.insertedRecord txn tab data)).1) :
    StmtStep tabs txn tab target inserting s₀ s (s.insertTuple txn tab fh data tabMeta.cols.length).2
  | failedInsert {fh : RmFileHandle} {tabMeta : TabMeta} (data : Bytes) (hinserting : inserting)
    (hfirst : s = s₀) (hruns : s.Runs txn)
    (hfh : s.fhs tab = some fh) (htab : tabs tab = some tabMeta)
    (htarget : target (fh.insertRecord (Store.insertedRecord txn tab data)).1) :
    StmtStep tabs txn tab target inserting s₀ s
      ((s.insertTuple txn tab fh data tabMeta.cols.length).2.dropInserted txn tab
        (fh.insertRecord (Store.insertedRecord txn tab data)).2
        (fh.insertRecord (Store.insertedRecord txn tab data)).1)
  /-- An UPDATE threw after it had appended its undo log. -/
  | log {fh : RmFileHandle} {tabMeta : TabMeta} {rid : Rid} {old : RecordView}
    (h : MayOverwrite s txn tab fh rid old) (htab : tabs tab = some tabMeta) (htarget : target rid) :
    StmtStep tabs txn tab target inserting s₀ s
      (s.appendUndoLog txn (updateLog tabMeta (fh.record rid) old (s.txnMgr.getUndoLink rid)))
  | overwrite {fh : RmFileHandle} {tabMeta : TabMeta} {rid : Rid} {old : RecordView} {wtype : WType}
    {log : UndoLog} {rec_ : RmRecord} (h : MayOverwrite s txn tab fh rid old)
    (htab : tabs tab = some tabMeta) (htarget : target rid)
    (hwrite : Overwrite tabMeta s txn tab (fh.record rid) rid old wtype log rec_) :
    StmtStep tabs txn tab target inserting s₀ s
      ((s.appendUndoLog txn log).installVersion txn tab fh wtype rid
        (s.txnMgr.nextUndoLink txn.txnId) rec_)

abbrev StmtSteps (tabs : String → Option TabMeta) (txn : Transaction) (tab : String)
    (target : Rid → Prop) (inserting : Prop) (s₀ : Store) : Store → Store → Prop :=
  Relation.ReflTransGen (StmtStep tabs txn tab target inserting s₀)

/-! ### The executors -/

theorem insertRecord_rid {fh : RmFileHandle} (rec rec' : Rid → RmRecord) :
    (fh.insertRecord rec).1 = (fh.insertRecord rec').1 := by
  simp only [RmFileHandle.insertRecord]
  generalize fh.createPageHandle = created
  obtain ⟨pageNo, fh₁⟩ := created
  cases fh₁.firstFreeSlot pageNo <;> rfl

private theorem runs_modifyTxn {s s' : Store} {txn : Transaction} {f : Transaction → Transaction}
    {tm : TransactionManager} (hmap : s'.txnMgr.txnMap = (tm.modifyTxn txn.txnId f).txnMap)
    (htm : tm.txnMap = s.txnMgr.txnMap) (hid : ∀ t, (f t).txnId = t.txnId)
    (hstart : ∀ t, (f t).startTs = t.startTs) (hstate : ∀ t, (f t).state = t.state)
    (h : s.Runs txn) : s'.Runs txn := by
  obtain ⟨cur, hcur, hs, ht⟩ := h
  have hcur' : tm.getTransaction txn.txnId = some cur := by
    rw [← hcur]
    unfold TransactionManager.getTransaction
    rw [htm]
  refine ⟨f cur, ?_, (hstart cur).trans hs, (hstate cur).trans ht⟩
  have hget : s'.txnMgr.getTransaction txn.txnId =
      (tm.modifyTxn txn.txnId f).getTransaction txn.txnId := by
    unfold TransactionManager.getTransaction
    rw [hmap]
  rw [hget, TransactionManager.getTransaction_modifyTxn_ite hid, hcur', if_pos rfl]
  rfl

variable {tabs : String → Option TabMeta} {txn : Transaction} {tab : String} {target : Rid → Prop}
  {inserting : Prop} {s₀ : Store}

theorem StmtStep.runs {s s' : Store} (h : StmtStep tabs txn tab target inserting s₀ s s') :
    s.Runs txn ∧ s'.Runs txn := by
  cases h with
  | insert data _ _ hruns =>
    exact ⟨hruns, runs_modifyTxn rfl rfl (fun _ => rfl) (fun _ => rfl) (fun _ => rfl) hruns⟩
  | failedInsert data _ _ hruns =>
    exact ⟨hruns, runs_modifyTxn rfl rfl (fun _ => rfl) (fun _ => rfl) (fun _ => rfl) hruns⟩
  | log h => exact ⟨h.runs, runs_modifyTxn rfl rfl (fun _ => rfl) (fun _ => rfl) (fun _ => rfl) h.runs⟩
  | overwrite h =>
    refine ⟨h.runs, runs_modifyTxn (TransactionManager.modifyTxn_modifyTxn fun _ => rfl) rfl ?_ ?_ ?_ h.runs⟩
      <;> exact fun _ => rfl

theorem StmtSteps.runs {s s' : Store} (h : StmtSteps tabs txn tab target inserting s₀ s s') (hs : s.Runs txn) :
    s'.Runs txn := by
  induction h with
  | refl => exact hs
  | tail _ hstep _ => exact hstep.runs.2

/-- The tables and the store stay as they are. -/
def SameStore (db db' : Database) : Prop := db'.store = db.store ∧ db'.tabs = db.tabs

/-- The tables stay as they are, and the store moves by steps of the statement. -/
def Steps (txn : Transaction) (tab : String) (target : Rid → Prop) (inserting : Prop) (s₀ : Store)
    (db db' : Database) : Prop :=
  db'.tabs = db.tabs ∧
    (db.store.Runs txn → StmtSteps db.tabs txn tab target inserting s₀ db.store db'.store)

private theorem sameStore_refl (db : Database) : SameStore db db := ⟨rfl, rfl⟩

private theorem sameStore_trans (db₁ db₂ db₃ : Database) (h : SameStore db₁ db₂)
    (h' : SameStore db₂ db₃) : SameStore db₁ db₃ := ⟨h'.1.trans h.1, h'.2.trans h.2⟩

private theorem steps_refl (db : Database) : Steps txn tab target inserting s₀ db db := ⟨rfl, fun _ => .refl⟩

private theorem steps_trans (db₁ db₂ db₃ : Database) (h : Steps txn tab target inserting s₀ db₁ db₂)
    (h' : Steps txn tab target inserting s₀ db₂ db₃) : Steps txn tab target inserting s₀ db₁ db₃ := by
  refine ⟨h'.1.trans h.1, fun hruns => ?_⟩
  have h₁ := h.2 hruns
  have h₂ := h'.2 (StmtSteps.runs h₁ hruns)
  rw [h.1] at h₂
  exact h₁.trans h₂

section sameStore
open Moves

private theorem indexHandle_same (name : String) : Moves SameStore (DbM.indexHandle name) := by
  refine bind sameStore_trans (get sameStore_refl) fun db => ?_
  cases db.ihs name with
  | none => exact throw sameStore_refl _
  | some ih => exact pure sameStore_refl _

private theorem ofIx_same {α : Type} (x : Except IxError α) : Moves SameStore (DbM.ofIx x) :=
  ofExcept sameStore_refl _

private theorem setIndexHandle_same (name : String) (ih : IxIndexHandle Bytes) :
    Moves SameStore (DbM.setIndexHandle name ih) := fun _ => ⟨rfl, rfl⟩

theorem insertIndexEntries_same (tab : String) (indexes : List IndexMeta) (data : Bytes) (rid : Rid) :
    Moves SameStore (insertIndexEntries tab indexes data rid) := by
  refine forM sameStore_refl sameStore_trans fun index _ => ?_
  refine bind sameStore_trans (indexHandle_same _) fun ih => ?_
  refine bind sameStore_trans (ofIx_same _) fun inserted => ?_
  exact setIndexHandle_same _ _

private theorem checkUniqueKeys_same (indexes : List IndexMeta) (old new : Bytes) :
    Moves SameStore (checkUniqueKeys tab indexes old new) := by
  refine forM sameStore_refl sameStore_trans fun index _ => ?_
  split
  · refine bind sameStore_trans (indexHandle_same _) fun ih => ?_
    split
    · refine bind sameStore_trans (ofIx_same _) fun found => ?_
      split
      · exact throw sameStore_refl _
      · exact pure sameStore_refl _
    · exact pure sameStore_refl _
  · exact pure sameStore_refl _

private theorem moveIndexEntries_same (indexes : List IndexMeta) (rid : Rid) (old new : Bytes) :
    Moves SameStore (moveIndexEntries tab indexes rid old new) := by
  refine forM sameStore_refl sameStore_trans fun index _ => ?_
  refine bind sameStore_trans (indexHandle_same _) fun ih => ?_
  split
  · refine bind sameStore_trans (ofIx_same _) fun deleted => ?_
    refine bind sameStore_trans (setIndexHandle_same _ _) fun _ => ?_
    refine bind sameStore_trans (ofIx_same _) fun inserted => ?_
    exact setIndexHandle_same _ _
  · exact pure sameStore_refl _

theorem prepareUpdate_same (tab : String) (tabMeta : TabMeta) (setClauses : List SetClause) (rid : Rid)
    (old data : Bytes) : Moves SameStore (prepareUpdate tab tabMeta setClauses rid old data) := by
  refine bind sameStore_trans (ofExcept sameStore_refl _) fun new => ?_
  refine bind sameStore_trans (checkUniqueKeys_same _ _ _) fun _ => ?_
  refine bind sameStore_trans (moveIndexEntries_same _ _ _ _) fun _ => ?_
  exact pure sameStore_refl _

end sameStore

/-- The data that an UPDATE goes on with is what its assignments make of the old data. -/
theorem prepareUpdate_ok {tab : String} {tabMeta : TabMeta} {setClauses : List SetClause}
    {rid : Rid} {old data new : Bytes} {db db' : Database}
    (h : runFrom (prepareUpdate tab tabMeta setClauses rid old data) db = (.ok new, db')) :
    applySetClauses tabMeta setClauses old data = .ok new := by
  simp only [prepareUpdate, runFrom_bind, runFrom_ofExcept] at h
  cases hset : applySetClauses tabMeta setClauses old data with
  | error e =>
    rw [hset] at h
    cases h
  | ok new' =>
    rw [hset] at h
    dsimp only at h
    split at h
    · split at h
      · cases h
        rfl
      · cases h
    · cases h

theorem runFrom_getTable (db : Database) :
    runFrom (DbM.getTable tab) db =
      (match db.tabs tab with
        | some tabMeta => .ok tabMeta
        | none => .error (.rmdb .tableNotFound), db) := by
  cases h : db.tabs tab <;> simp [DbM.getTable, runFrom_bind, h]

theorem runFrom_fileHandle (db : Database) :
    runFrom (DbM.fileHandle tab) db =
      (match db.store.fhs tab with
        | some fh => .ok fh
        | none => .error .crash, db) := by
  cases h : db.store.fhs tab <;> simp [DbM.fileHandle, runFrom_bind, h]

@[simp] theorem runFrom_getStore (db : Database) :
    runFrom DbM.getStore db = (.ok db.store, db) := rfl

@[simp] theorem runFrom_modifyStore (db : Database) (f : Store → Store) :
    runFrom (DbM.modifyStore f) db = (.ok ⟨⟩, { db with store := f db.store }) := rfl

/-- The part of an INSERT that writes leaves the new row, or frees its slot again. -/
private theorem insertRow_store {db : Database} {tabMeta : TabMeta} {fh : RmFileHandle} {data : Bytes} :
    (runFrom (insertRow txn tab tabMeta fh data) db).2.tabs = db.tabs ∧
      ((runFrom (insertRow txn tab tabMeta fh data) db).2.store =
          (db.store.insertTuple txn tab fh data tabMeta.cols.length).2 ∨
        (runFrom (insertRow txn tab tabMeta fh data) db).2.store =
          (db.store.insertTuple txn tab fh data tabMeta.cols.length).2.dropInserted txn tab
            (fh.insertRecord (Store.insertedRecord txn tab data)).2
            (fh.insertRecord (Store.insertedRecord txn tab data)).1) := by
  let inserted := db.store.insertTuple txn tab fh data tabMeta.cols.length
  have hentries := insertIndexEntries_same tab tabMeta.indexes data inserted.1
    { db with store := inserted.2 }
  have hnew : inserted.2.fhs tab =
      some (fh.insertRecord (Store.insertedRecord txn tab data)).2 := by
    simp only [inserted, Store.insertTuple, Function.update_self]
  simp only [insertRow, runFrom_bind, runFrom_getStore, runFrom_modifyStore, runFrom_tryCatch]
  revert hentries
  rcases runFrom (insertIndexEntries tab tabMeta.indexes data inserted.1)
    { db with store := inserted.2 } with ⟨e | _, db'⟩ <;> rintro ⟨hstore, htabs⟩
  · have hfile : db'.store.fhs tab = some (fh.insertRecord (Store.insertedRecord txn tab data)).2 := by
      rw [hstore, hnew]
    simp only [runFrom_fileHandle, hfile, runFrom_throw]
    simp only at hstore
    rw [hstore]
    exact ⟨htabs, .inr rfl⟩
  · simp only at hstore
    simp only [hstore]
    exact ⟨htabs, .inl rfl⟩

/-- What an INSERT does to the store, if anything. -/
theorem execInsert_store (db : Database) (txn : Transaction) (tab : String) (values : List Value) :
    (runFrom (execInsert txn tab values) db).2.tabs = db.tabs ∧
      ((runFrom (execInsert txn tab values) db).2.store = db.store ∨
        ∃ fh tabMeta data, db.store.fhs tab = some fh ∧ db.tabs tab = some tabMeta ∧
          ((runFrom (execInsert txn tab values) db).2.store =
              (db.store.insertTuple txn tab fh data tabMeta.cols.length).2 ∨
            (runFrom (execInsert txn tab values) db).2.store =
              (db.store.insertTuple txn tab fh data tabMeta.cols.length).2.dropInserted txn tab
                (fh.insertRecord (Store.insertedRecord txn tab data)).2
                (fh.insertRecord (Store.insertedRecord txn tab data)).1)) := by
  simp only [execInsert, runFrom_bind, runFrom_getTable]
  cases htab : db.tabs tab with
  | none => exact ⟨rfl, .inl rfl⟩
  | some tabMeta =>
    dsimp only
    split
    · exact ⟨rfl, .inl rfl⟩
    · simp only [runFrom_bind, runFrom_fileHandle]
      cases hfh : db.store.fhs tab with
      | none => exact ⟨rfl, .inl rfl⟩
      | some fh =>
        simp only [runFrom_ofExcept]
        cases encodeRow fh.recordSize tabMeta.cols values with
        | error e => exact ⟨rfl, .inl rfl⟩
        | ok data =>
          simp only [runFrom_getStore]
          cases checkPrimaryKey db.store txn fh tabMeta data with
          | error e => exact ⟨rfl, .inl rfl⟩
          | ok _ =>
            obtain ⟨htabs, hstore⟩ := @insertRow_store txn tab db tabMeta fh data
            exact ⟨htabs, .inr ⟨fh, tabMeta, data, rfl, rfl, hstore⟩⟩

theorem updateRow_steps {tabMeta : TabMeta} {setClauses : List SetClause} {rid : Rid}
    (htarget : target rid) (db : Database) (htab : db.tabs tab = some tabMeta) :
    Steps txn tab target inserting s₀ db (runFrom (updateRow txn tab tabMeta setClauses rid) db).2 := by
  simp only [updateRow, runFrom_bind, runFrom_getStore, runFrom_fileHandle]
  cases hfh : db.store.fhs tab with
  | none => exact steps_refl db
  | some fh =>
    cases hconflict : fh.checkWriteWriteConflict db.store.txnMgr txn rid with
    | true =>
      simp only [hconflict, if_true, runFrom_bind, runFrom_throw]
      exact steps_refl db
    | false =>
      simp only [hconflict, Bool.false_eq_true, if_false, runFrom_bind, runFrom_ofExcept]
      cases hold : fh.getRecordMvcc db.store.txnMgr txn.startTs rid with
      | error e => exact steps_refl db
      | ok view =>
        cases view with
        | none =>
          dsimp only
          split <;> exact steps_refl db
        | some old =>
          let raw := fh.record rid
          let log := updateLog tabMeta raw old (db.store.txnMgr.getUndoLink rid)
          have hprepare := prepareUpdate_same tab tabMeta setClauses rid old.data
            raw.row.bytes { db with store := db.store.appendUndoLog txn log }
          simp only [runFrom_bind, runFrom_modifyStore]
          revert hprepare
          rcases runFrom (prepareUpdate tab tabMeta setClauses rid old.data raw.row.bytes)
            { db with store := db.store.appendUndoLog txn log } with ⟨e | new, db'⟩ <;>
            rintro ⟨hstore, htabs⟩
          · refine ⟨htabs, fun hruns => ?_⟩
            simp only at hstore
            simp only [hstore]
            exact .single (.log ⟨hruns, hfh, hconflict, hold⟩ htab htarget)
          · refine ⟨htabs, fun hruns => ?_⟩
            simp only at hstore
            simp only [hstore]
            exact .single (.overwrite ⟨hruns, hfh, hconflict, hold⟩ htab htarget (.update new))

private theorem deleteRow_steps {tabMeta : TabMeta} {rid : Rid} (htarget : target rid)
    (db : Database) (htab : db.tabs tab = some tabMeta) :
    Steps txn tab target inserting s₀ db (runFrom (deleteRow txn tab tabMeta rid) db).2 := by
  simp only [deleteRow, runFrom_bind, runFrom_getStore, runFrom_fileHandle]
  cases hfh : db.store.fhs tab with
  | none => exact steps_refl db
  | some fh =>
    simp only [runFrom_ofExcept]
    cases hold : fh.getRecordMvcc db.store.txnMgr txn.startTs rid with
    | error e => exact steps_refl db
    | ok view =>
      cases view with
      | none => exact steps_refl db
      | some old =>
        cases hconflict : fh.checkWriteWriteConflict db.store.txnMgr txn rid with
        | true =>
          simp only [if_true, runFrom_bind, runFrom_throw]
          exact steps_refl db
        | false =>
          simp only [Bool.false_eq_true, if_false, runFrom_modifyStore]
          exact ⟨rfl, fun hruns =>
            .single (.overwrite ⟨hruns, hfh, hconflict, hold⟩ htab htarget .delete)⟩

/-- A loop over the target slots moves by steps if each of its rounds does. -/
private theorem forM_steps (tabMeta : TabMeta) {rids : List Rid} {row : Rid → DbM Unit}
    (hrow : ∀ rid ∈ rids, ∀ db : Database, db.tabs tab = some tabMeta →
      Steps txn tab target inserting s₀ db (runFrom (row rid) db).2)
    (db : Database) (htab : db.tabs tab = some tabMeta) :
    Steps txn tab target inserting s₀ db (runFrom (rids.forM row) db).2 := by
  have h : Moves (fun db db' => db.tabs tab = some tabMeta → Steps txn tab target inserting s₀ db db')
      (rids.forM row) := by
    refine Moves.forM (fun db _ => steps_refl db) ?_ ?_
    · intro db₁ db₂ db₃ h h' htab
      have h₁ := h htab
      exact steps_trans _ _ _ h₁ (h' (h₁.1 ▸ htab))
    · exact fun rid hrid db htab => hrow rid hrid db htab
  exact h db htab

/-- A run of a statement, whatever its outcome, is a sequence of steps on its target slots. -/
theorem Statement.exec_steps (db : Database) (txn : Transaction) (stmt : Statement) :
    Steps txn stmt.tab (· ∈ stmt.targets db txn) stmt.isInsert db.store db
      (runFrom (stmt.exec txn) db).2 := by
  cases stmt with
  | insert tab values =>
    obtain ⟨htabs, hstore⟩ := execInsert_store db txn tab values
    refine ⟨htabs, fun hruns => ?_⟩
    change StmtSteps db.tabs txn tab _ _ db.store db.store (runFrom (execInsert txn tab values) db).2.store
    rcases hstore with hstore | ⟨fh, tabMeta, data, hfh, htab, hstore⟩
    · rw [hstore]
    · have htarget : (fh.insertRecord (Store.insertedRecord txn tab data)).1 ∈
          (insert tab values).targets db txn := by
        simp only [targets, Statement.tab, hfh, List.mem_singleton]
        exact insertRecord_rid _ _
      rcases hstore with hstore | hstore
      · rw [hstore]
        exact .single (.insert data trivial rfl hruns hfh htab htarget)
      · rw [hstore]
        exact .single (.failedInsert data trivial rfl hruns hfh htab htarget)
  | update tab setClauses conds =>
    simp only [exec, execUpdate, Statement.tab, runFrom_bind, runFrom_getTable]
    cases htab : db.tabs tab with
    | none => exact steps_refl db
    | some tabMeta =>
      simp only [runFrom_fileHandle]
      cases hfh : db.store.fhs tab with
      | none => exact steps_refl db
      | some fh =>
        refine forM_steps tabMeta (fun rid hrid => updateRow_steps ?_) db htab
        simpa only [targets, Statement.tab, hfh] using hrid
  | delete tab conds plan =>
    simp only [exec, execDelete, Statement.tab, runFrom_bind, runFrom_getTable]
    cases htab : db.tabs tab with
    | none => exact steps_refl db
    | some tabMeta =>
      simp only [runFrom_fileHandle]
      cases hfh : db.store.fhs tab with
      | none => exact steps_refl db
      | some fh =>
        simp only [runFrom_get, runFrom_ofExcept]
        cases hrids : deleteRids db txn tab fh conds plan with
        | error e => exact steps_refl db
        | ok rids =>
          refine forM_steps tabMeta (fun rid hrid => deleteRow_steps ?_) db htab
          simp only [targets, Statement.tab, hfh, hrids]
          exact hrid

end Rmdb
