import Rmdb.Lib.Runs
import Rmdb.System.Run

/-! The images that the record files log, and what replaying them makes of the files of the start. -/
namespace Rmdb

open Program

/-- The bytes of a slot: its header and the data behind it. -/
def RmRecord.slotBytes (rec_ : RmRecord) : TupleMeta × Bytes := (rec_.tupleMeta, rec_.row.bytes)

/-- `Context::tab_name_`, which nobody assigns. -/
def contextTabName : String := ""

/-- What a log record says of a slot after the change. -/
inductive LogImage where
  | insert (tab : String) (rid : Rid) (value : TupleMeta × Bytes)
  | delete (tab : String) (rid : Rid)
  | update (tab : String) (rid : Rid) (newValue : TupleMeta × Bytes)

/-- The bytes and the occupied flags of all slots; a table without a file has none. -/
structure TableFiles where
  slot : String → Rid → Option (TupleMeta × Bytes)
  occupied : String → Rid → Bool

def Store.tableFiles (s : Store) : TableFiles where
  slot tab rid := (s.slot tab rid).map RmRecord.slotBytes
  occupied := s.occupied

namespace TableFiles

variable (files : TableFiles)

def has (tab : String) (rid : Rid) : Bool := (files.slot tab rid).isSome

def setSlot (tab : String) (rid : Rid) (value : TupleMeta × Bytes) : TableFiles :=
  { files with slot := fun t r => if t = tab ∧ r = rid ∧ files.has t r then some value else files.slot t r }

def setOccupied (tab : String) (rid : Rid) (used : Bool) : TableFiles :=
  { files with occupied := fun t r => if t = tab ∧ r = rid ∧ files.has t r then used else files.occupied t r }

/-- A deletion leaves zeros. -/
def redo : LogImage → TableFiles
  | .insert tab rid value => (files.setOccupied tab rid true).setSlot tab rid value
  | .delete tab rid =>
    match files.slot tab rid with
    | none => files
    | some old => (files.setOccupied tab rid false).setSlot tab rid (⟨0, false⟩, List.replicate old.2.length 0)
  | .update tab rid newValue => files.setSlot tab rid newValue

end TableFiles

/-! ### Logging -/

/-- What `insert_record`, `update_record` and `delete_record` log for a statement. It frees a slot where
an index has refused its row. -/
def HeapWrite.image (w : HeapWrite) : LogImage :=
  match w.kind with
  | .insert => .insert contextTabName w.rid w.record.slotBytes
  | .update => .update contextTabName w.rid w.record.slotBytes
  | .delete => .update contextTabName w.rid w.record.slotBytes
  | .undo => .delete contextTabName w.rid

/-- What the rollback of a write logs. The insertion at a given place has no log. -/
def WriteRecord.image (w : WriteRecord) : Option LogImage :=
  match w.wtype with
  | .insertTuple => some (.delete contextTabName w.rid)
  | .deleteTuple => none
  | .updateTuple => some (.update contextTabName w.rid w.record.slotBytes)

/-- The images of a step, the oldest first. A statement logs each of its writes, a commit none of its
new timestamps. -/
def logOf (db db' : Database) : Action → List LogImage
  | .stmt _ _ => (db'.store.history.take (db'.store.history.length - db.store.history.length)).reverse.map HeapWrite.image
  | .abort txnId => ((db.activeTxn txnId).elim [] (·.writeSet)).reverse.filterMap WriteRecord.image
  | .rollbackOne txnId =>
    ((db.store.txnMgr.getTransaction txnId).elim [] (·.writeSet)).getLast?.toList.filterMap WriteRecord.image
  | .begin | .commit _ | .markAborted _ | .garbageCollection | .createTable _ _ | .dropTable _ | .createIndex _ _ _ => []

structure LoggedDatabase where
  db : Database
  log : List LogImage

namespace LoggedDatabase

def step (action : Action) (s : LoggedDatabase) : Option LoggedDatabase :=
  (s.db.step action).map fun db => ⟨db, s.log ++ logOf s.db db action⟩

/-- The log makes the files of the start into those there are. -/
def Sufficient (db₀ : Database) (s : LoggedDatabase) : Prop :=
  s.log.foldl TableFiles.redo db₀.store.tableFiles = s.db.store.tableFiles

end LoggedDatabase

/-! ### Steps that write no slot -/

section refused
variable (db : Database) (txn : Transaction)

/-- The INSERT is refused before it writes, or there is no slot for its row. -/
def InsertRefused (tab : String) (values : List Value) : Prop :=
  ∀ tabMeta fh data, db.tabs tab = some tabMeta → db.store.fhs tab = some fh →
    values.length = tabMeta.cols.length → encodeRow fh.recordSize tabMeta.cols values = .ok data →
    checkPrimaryKey db.store txn fh tabMeta data = .ok () →
    (fh.insertRecord fun _ => zeroRecord fh.recordSize).1 = ⟨-1, -1⟩

/-- The row is in conflict, or not visible, or its new data cannot be prepared. -/
def UpdateRefused (tab : String) (tabMeta : TabMeta) (fh : RmFileHandle) (setClauses : List SetClause)
    (rid : Rid) : Prop :=
  fh.checkWriteWriteConflict db.store.txnMgr txn rid = true ∨
    ∀ old, fh.getRecordMvcc db.store.txnMgr txn.startTs rid = .ok (some old) →
      let log := updateLog tabMeta (fh.record rid) old (db.store.txnMgr.getUndoLink rid)
      ∀ new, (runFrom (prepareUpdate tab tabMeta setClauses rid old.data (fh.record rid).row.bytes)
        { db with store := db.store.appendUndoLog txn log }).1 ≠ .ok new

/-- A statement with no row to write, or one that throws at its first. -/
def Statement.WritesNoSlot : Statement → Prop
  | insert tab values => InsertRefused db txn tab values
  | update tab setClauses conds => ∀ tabMeta fh, db.tabs tab = some tabMeta → db.store.fhs tab = some fh →
      ∀ rid ∈ (updateRids fh conds).head?, UpdateRefused db txn tab tabMeta fh setClauses rid
  | delete tab conds plan => ∀ fh, db.store.fhs tab = some fh →
      ∀ rids, deleteRids db txn tab fh conds plan = .ok rids →
        ∀ rid ∈ rids.head?, fh.checkWriteWriteConflict db.store.txnMgr txn rid = true

/-- The commit has no record to stamp. -/
def Transaction.StampsNoSlot : Prop :=
  ∀ w ∈ txn.writeSet, ∀ fh, db.store.fhs w.tabName = some fh →
    ¬(fh.isRecord w.rid = true ∧ (fh.record w.rid).tupleMeta.ts = txn.startTs ∧
      txn.startTs < db.store.txnMgr.nextTimestamp)

end refused

/-- Nothing that the step does reaches a slot, and the record files stay those of the start. -/
def Action.WritesNoSlot (action : Action) (s : LoggedDatabase) : Prop :=
  match action with
  | .stmt txnId statement => ∀ txn, s.db.activeTxn txnId = some txn → statement.WritesNoSlot s.db txn
  | .commit txnId => ∀ txn, s.db.activeTxn txnId = some txn → txn.StampsNoSlot s.db
  | .abort txnId => ∀ txn, s.db.activeTxn txnId = some txn → txn.writeSet = []
  | .rollbackOne txnId => ∀ txn, s.db.store.txnMgr.getTransaction txnId = some txn → txn.writeSet = []
  | .begin | .markAborted _ | .garbageCollection | .createIndex _ _ _ => True
  | .createTable _ _ | .dropTable _ => False

/-! ### What is logged names no table -/

def LogImage.tab : LogImage → String
  | .insert tab _ _ => tab
  | .delete tab _ => tab
  | .update tab _ _ => tab

theorem HeapWrite.image_tab (w : HeapWrite) : w.image.tab = contextTabName := by
  unfold image
  cases w.kind <;> rfl

theorem WriteRecord.image_tab {w : WriteRecord} {image : LogImage} (h : w.image = some image) :
    image.tab = contextTabName := by
  unfold WriteRecord.image at h
  cases hw : w.wtype with
  | insertTuple =>
    rw [hw] at h
    cases h
    rfl
  | deleteTuple =>
    rw [hw] at h
    cases h
  | updateTuple =>
    rw [hw] at h
    cases h
    rfl

theorem logOf_tab {db db' : Database} {action : Action} {image : LogImage} (h : image ∈ logOf db db' action) :
    image.tab = contextTabName := by
  unfold logOf at h
  split at h
  · obtain ⟨w, _, rfl⟩ := List.mem_map.mp h
    exact w.image_tab
  · obtain ⟨w, _, hw⟩ := List.mem_filterMap.mp h
    exact WriteRecord.image_tab hw
  · obtain ⟨w, _, hw⟩ := List.mem_filterMap.mp h
    exact WriteRecord.image_tab hw
  all_goals exact absurd h List.not_mem_nil

namespace TableFiles
variable {files : TableFiles} {tab : String} {rid : Rid}

theorem setSlot_absent {value : TupleMeta × Bytes} (h : files.has tab rid = false) :
    files.setSlot tab rid value = files := by
  have hnot : ∀ t r, ¬(t = tab ∧ r = rid ∧ files.has t r = true) := by
    rintro t r ⟨rfl, rfl, hhas⟩
    rw [h] at hhas
    cases hhas
  unfold setSlot
  simp only [hnot, if_false]

theorem setOccupied_absent {used : Bool} (h : files.has tab rid = false) :
    files.setOccupied tab rid used = files := by
  have hnot : ∀ t r, ¬(t = tab ∧ r = rid ∧ files.has t r = true) := by
    rintro t r ⟨rfl, rfl, hhas⟩
    rw [h] at hhas
    cases hhas
  unfold setOccupied
  simp only [hnot, if_false]

/-- An image for a table that has no file does nothing. -/
theorem redo_absent {image : LogImage} (h : ∀ rid, files.slot image.tab rid = none) : files.redo image = files := by
  have hhas : ∀ rid, files.has image.tab rid = false := by
    intro rid
    rw [has, h, Option.isSome_none]
  cases image with
  | insert tab rid value =>
    have habsent : files.has tab rid = false := hhas rid
    rw [redo, setOccupied_absent habsent, setSlot_absent habsent]
  | delete tab rid =>
    have hslot : files.slot tab rid = none := h rid
    rw [redo, hslot]
  | update tab rid newValue =>
    have habsent : files.has tab rid = false := hhas rid
    rw [redo, setSlot_absent habsent]

theorem foldl_redo_absent {log : List LogImage} (h : ∀ image ∈ log, ∀ rid, files.slot image.tab rid = none) :
    log.foldl redo files = files := by
  induction log with
  | nil => rfl
  | cons image log ih =>
    rw [List.foldl_cons, redo_absent (h image List.mem_cons_self)]
    exact ih fun image' himage => h image' (List.mem_cons_of_mem _ himage)

end TableFiles

theorem Store.SameSlots.tableFiles {s s' : Store} (h : SameSlots s s') : s'.tableFiles = s.tableFiles := by
  unfold Store.tableFiles
  rw [TableFiles.mk.injEq]
  constructor
  · funext tab rid
    rw [h.slot]
  · funext tab rid
    exact h.occupied tab rid

/-! ### Steps that write no slot leave them as they are -/

/-- The slots are as before, and no write was recorded. -/
structure Store.NoWrite (s s' : Store) : Prop where
  slots : SameSlots s s'
  history : s'.history = s.history

section quiet
variable {db db' : Database} {txn : Transaction} {tab : String}

theorem Store.NoWrite.refl (s : Store) : s.NoWrite s := ⟨.of_fhs rfl, rfl⟩

theorem insertRow_noWrite {tabMeta : TabMeta} {fh : RmFileHandle} {data : Bytes} (hfh : db.store.fhs tab = some fh)
    (hslot : (fh.insertRecord fun _ => zeroRecord fh.recordSize).1 = ⟨-1, -1⟩) :
    db.store.NoWrite (runFrom (insertRow txn tab tabMeta fh data) db).2.store := by
  have hrid : (fh.insertRecord (Store.insertedRecord txn tab data)).1 = ⟨-1, -1⟩ :=
    (insertRecord_rid _ _).trans hslot
  have hsame : fh.SameRecords (fh.insertRecord (Store.insertedRecord txn tab data)).2 := by
    rcases fh.insertRecord_spec (Store.insertedRecord txn tab data) with ⟨_, hsame⟩ | ⟨_, hwrote⟩
    · exact hsame
    · have hpage := hwrote.page
      rw [hrid] at hpage
      exact absurd hpage.1 (by decide)
  let inserted := db.store.insertTuple txn tab fh data tabMeta.cols.length
  have hfhs : inserted.2.fhs = Function.update db.store.fhs tab
      (some (fh.insertRecord (Store.insertedRecord txn tab data)).2) := rfl
  have hinserted : db.store.NoWrite inserted.2 := by
    constructor
    · exact Store.sameSlots_of_sameRecords hfh hsame hfhs
    · exact if_pos hrid
  have hentries := insertIndexEntries_same tab tabMeta.indexes data inserted.1 { db with store := inserted.2 }
  simp only [insertRow, runFrom_bind, runFrom_getStore, runFrom_modifyStore, runFrom_tryCatch]
  revert hentries
  rcases runFrom (insertIndexEntries tab tabMeta.indexes data inserted.1)
    { db with store := inserted.2 } with ⟨e | _, db'⟩ <;> intro hentries
  · have hstore : db'.store = inserted.2 := hentries.1
    have hfile : db'.store.fhs tab = some (fh.insertRecord (Store.insertedRecord txn tab data)).2 := by
      rw [hstore, hfhs, Function.update_self]
    have hfree : (fh.insertRecord (Store.insertedRecord txn tab data)).2.isRecord inserted.1 = false := by
      have hnone : ¬(fh.insertRecord (Store.insertedRecord txn tab data)).2.hasPage (-1) := fun hpage =>
        absurd hpage.1 (by decide)
      show (fh.insertRecord (Store.insertedRecord txn tab data)).2.isRecord
        (fh.insertRecord (Store.insertedRecord txn tab data)).1 = false
      rw [hrid, RmFileHandle.isRecord, decide_eq_false hnone, Bool.false_and]
    simp only [runFrom_fileHandle, hfile, runFrom_throw]
    have hkept : (fh.insertRecord (Store.insertedRecord txn tab data)).2.deleteRecord inserted.1 =
        (fh.insertRecord (Store.insertedRecord txn tab data)).2 := by
      rw [RmFileHandle.deleteRecord, if_neg (Bool.eq_false_iff.mp hfree)]
    rw [hstore]
    constructor
    · apply Store.sameSlots_of_sameRecords hfh hsame
      show Function.update inserted.2.fhs tab (some (RmFileHandle.deleteRecord _ inserted.1)) = _
      rw [hkept, hfhs, Function.update_idem]
    · show (if (fh.insertRecord (Store.insertedRecord txn tab data)).2.isRecord inserted.1 then _ else _) = _
      rw [if_neg (Bool.eq_false_iff.mp hfree)]
      exact hinserted.history
  · have hstore : db'.store = inserted.2 := hentries.1
    simp only [hstore]
    exact hinserted

theorem execInsert_noWrite {values : List Value} (h : InsertRefused db txn tab values) :
    db.store.NoWrite (runFrom (execInsert txn tab values) db).2.store := by
  unfold execInsert
  rw [runFrom_bind, runFrom_getTable]
  cases htab : db.tabs tab with
  | none => exact .refl _
  | some tabMeta =>
    dsimp only
    split
    · exact .refl _
    · rename_i hcount
      rw [runFrom_bind, runFrom_fileHandle]
      cases hfh : db.store.fhs tab with
      | none => exact .refl _
      | some fh =>
        dsimp only
        rw [runFrom_bind, runFrom_ofExcept]
        cases hdata : encodeRow fh.recordSize tabMeta.cols values with
        | error e => exact .refl _
        | ok data =>
          dsimp only
          rw [runFrom_bind, runFrom_getStore]
          dsimp only
          rw [runFrom_bind, runFrom_ofExcept]
          cases hcheck : checkPrimaryKey db.store txn fh tabMeta data with
          | error e => exact .refl _
          | ok _ => exact insertRow_noWrite hfh (h tabMeta fh data htab hfh (not_not.mp hcount) hdata hcheck)

/-- The row throws before it is written. -/
theorem updateRow_refused {tabMeta : TabMeta} {fh : RmFileHandle} {setClauses : List SetClause} {rid : Rid}
    (hfh : db.store.fhs tab = some fh) (hpage : fh.hasPage rid.pageNo)
    (h : UpdateRefused db txn tab tabMeta fh setClauses rid) :
    ∃ e db', runFrom (updateRow txn tab tabMeta setClauses rid) db = (.error e, db') ∧ db.store.NoWrite db'.store := by
  simp only [updateRow, runFrom_bind, runFrom_getStore, runFrom_fileHandle, hfh]
  cases hconflict : fh.checkWriteWriteConflict db.store.txnMgr txn rid with
  | true =>
    simp only [if_true, runFrom_bind, runFrom_throw]
    exact ⟨_, _, rfl, .refl _⟩
  | false =>
    simp only [Bool.false_eq_true, if_false, runFrom_bind, runFrom_ofExcept]
    cases hold : fh.getRecordMvcc db.store.txnMgr txn.startTs rid with
    | error e => exact ⟨_, _, rfl, .refl _⟩
    | ok view =>
      cases view with
      | none =>
        simp only [if_pos hpage, runFrom_throw]
        exact ⟨_, _, rfl, .refl _⟩
      | some old =>
        let raw := fh.record rid
        let log := updateLog tabMeta raw old (db.store.txnMgr.getUndoLink rid)
        have hfails := (h.resolve_left (Bool.eq_false_iff.mp hconflict)) old hold
        have hprepare := prepareUpdate_same tab tabMeta setClauses rid old.data raw.row.bytes
          { db with store := db.store.appendUndoLog txn log }
        simp only [runFrom_bind, runFrom_modifyStore]
        revert hprepare hfails
        dsimp only
        rcases runFrom (prepareUpdate tab tabMeta setClauses rid old.data raw.row.bytes)
          { db with store := db.store.appendUndoLog txn log } with ⟨e | new, db'⟩ <;> intro hfails hprepare
        · have hstore : db'.store = db.store.appendUndoLog txn log := hprepare.1
          refine ⟨_, _, rfl, ?_⟩
          rw [hstore]
          exact ⟨.of_fhs rfl, rfl⟩
        · exact absurd rfl (hfails new)

theorem visible_of_mem_deleteRids {fh : RmFileHandle} {conds : Bytes → Bool} {plan : ScanPlan} {rids : List Rid}
    {rid : Rid} (hrids : deleteRids db txn tab fh conds plan = .ok rids) (hmem : rid ∈ rids) :
    ∃ view, fh.getRecordMvcc db.store.txnMgr txn.startTs rid = .ok (some view) := by
  obtain ⟨planned, _, hfilter⟩ := bind_eq_ok.mp hrids
  obtain ⟨_, hkeep⟩ := of_mem_filterM hfilter hmem
  obtain ⟨view, hview, hmeets⟩ := bind_eq_ok.mp hkeep
  cases view with
  | none => cases hmeets
  | some view => exact ⟨view, hview⟩

theorem deleteRow_refused {tabMeta : TabMeta} {fh : RmFileHandle} {rid : Rid} (hfh : db.store.fhs tab = some fh)
    (hvisible : ∃ view, fh.getRecordMvcc db.store.txnMgr txn.startTs rid = .ok (some view))
    (hconflict : fh.checkWriteWriteConflict db.store.txnMgr txn rid = true) :
    ∃ e, runFrom (deleteRow txn tab tabMeta rid) db = (.error e, db) := by
  obtain ⟨view, hview⟩ := hvisible
  simp only [deleteRow, runFrom_bind, runFrom_getStore, runFrom_fileHandle, hfh, runFrom_ofExcept, hview, hconflict,
    if_true, runFrom_throw]
  exact ⟨_, rfl⟩

theorem execUpdate_noWrite {setClauses : List SetClause} {conds : Bytes → Bool}
    (h : (Statement.update tab setClauses conds).WritesNoSlot db txn) :
    db.store.NoWrite (runFrom (execUpdate txn tab setClauses conds) db).2.store := by
  unfold execUpdate
  rw [runFrom_bind, runFrom_getTable]
  cases htab : db.tabs tab with
  | none => exact .refl _
  | some tabMeta =>
    dsimp only
    rw [runFrom_bind, runFrom_fileHandle]
    cases hfh : db.store.fhs tab with
    | none => exact .refl _
    | some fh =>
      dsimp only
      have hfirst := h tabMeta fh htab hfh
      cases hrids : updateRids fh conds with
      | nil => exact .refl _
      | cons rid rids =>
        rw [hrids] at hfirst
        have hmem : rid ∈ updateRids fh conds := by
          rw [hrids]
          exact List.mem_cons_self
        have hrecord := RmFileHandle.mem_scanRids (List.mem_of_mem_filter hmem)
        have hpage := (RmFileHandle.isRecord_iff.mp hrecord).1
        obtain ⟨e, db', hrow, hkept⟩ := updateRow_refused hfh hpage (hfirst rid rfl)
        rw [runFrom_forM_cons, hrow]
        exact hkept

theorem execDelete_noWrite {conds : Bytes → Bool} {plan : ScanPlan}
    (h : (Statement.delete tab conds plan).WritesNoSlot db txn) :
    db.store.NoWrite (runFrom (execDelete txn tab conds plan) db).2.store := by
  unfold execDelete
  rw [runFrom_bind, runFrom_getTable]
  cases htab : db.tabs tab with
  | none => exact .refl _
  | some tabMeta =>
    dsimp only
    rw [runFrom_bind, runFrom_fileHandle]
    cases hfh : db.store.fhs tab with
    | none => exact .refl _
    | some fh =>
      dsimp only
      rw [runFrom_bind, runFrom_get]
      dsimp only
      rw [runFrom_bind, runFrom_ofExcept]
      cases hrids : deleteRids db txn tab fh conds plan with
      | error e => exact .refl _
      | ok rids =>
        dsimp only
        have hfirst := h fh hfh rids hrids
        cases hcons : rids with
        | nil => exact .refl _
        | cons rid rest =>
          rw [hcons] at hfirst
          have hmem : rid ∈ rids := by
            rw [hcons]
            exact List.mem_cons_self
          have hrefused : ∃ e, runFrom (deleteRow txn tab tabMeta rid) db = (.error e, db) :=
            deleteRow_refused hfh (visible_of_mem_deleteRids hrids hmem) (hfirst rid rfl)
          obtain ⟨e, hrow⟩ := hrefused
          rw [runFrom_forM_cons, hrow]
          exact .refl _

theorem Statement.exec_noWrite {stmt : Statement} (h : stmt.WritesNoSlot db txn) :
    db.store.NoWrite (runFrom (stmt.exec txn) db).2.store := by
  cases stmt with
  | insert tab values => exact execInsert_noWrite h
  | update tab setClauses conds => exact execUpdate_noWrite h
  | delete tab conds plan => exact execDelete_noWrite h

theorem Store.commit_sameSlots (h : txn.StampsNoSlot db) : SameSlots db.store (db.store.commit txn) := by
  have hstamp : ∀ (ws : List WriteRecord) (s : Store), (∀ w ∈ ws, w ∈ txn.writeSet) → s.fhs = db.store.fhs →
      (ws.foldl (fun s w => s.restamp txn db.store.txnMgr.nextTimestamp w) s).fhs = db.store.fhs := by
    intro ws
    induction ws with
    | nil =>
      intro s _ hs
      exact hs
    | cons w ws ih =>
      intro s hws hs
      rw [List.foldl_cons]
      apply ih _ fun w' hw' => hws w' (List.mem_cons_of_mem w hw')
      unfold restamp
      split
      · exact hs
      · rename_i fh hfh
        rw [hs] at hfh
        rw [if_neg (h w (hws w List.mem_cons_self) fh hfh)]
        exact hs
  exact .of_fhs (hstamp txn.writeSet _ (fun _ hw => hw) rfl)

end quiet

namespace LoggedDatabase

theorem step_kept {s s' : LoggedDatabase} {action : Action} (hquiet : action.WritesNoSlot s)
    (h : step action s = some s') : s'.db.store.tableFiles = s.db.store.tableFiles ∧ s'.log = s.log := by
  obtain ⟨db', hstep, rfl⟩ := Option.map_eq_some_iff.mp h
  show db'.store.tableFiles = _ ∧ s.log ++ logOf s.db db' action = s.log
  cases action with
  | begin =>
    cases hstep
    exact ⟨rfl, List.append_nil _⟩
  | stmt txnId statement =>
    simp only [Database.step, Option.bind_eq_bind, Option.bind_eq_some_iff] at hstep
    obtain ⟨txn, htxn, hrun⟩ := hstep
    have hkept := Statement.exec_noWrite (hquiet txn htxn)
    rw [Database.runProgram_eq hrun] at hkept
    refine ⟨hkept.slots.tableFiles, ?_⟩
    rw [logOf, hkept.history, Nat.sub_self, List.take_zero, List.reverse_nil, List.map_nil, List.append_nil]
  | commit txnId =>
    obtain ⟨txn, htxn, rfl⟩ := Database.step_commit hstep
    exact ⟨(Store.commit_sameSlots (hquiet txn htxn)).tableFiles, List.append_nil _⟩
  | abort txnId =>
    obtain ⟨txn, store, htxn, habort, rfl⟩ := Database.step_abort hstep
    have hempty := hquiet txn htxn
    rw [Store.abort, hempty] at habort
    obtain rfl := Option.some.inj habort
    refine ⟨rfl, ?_⟩
    rw [logOf, htxn, Option.elim_some, hempty]
    exact List.append_nil _
  | markAborted txnId =>
    obtain ⟨txn, htxn, rfl⟩ := Database.step_markAborted hstep
    exact ⟨rfl, List.append_nil _⟩
  | rollbackOne txnId =>
    obtain ⟨txn, store, htxn, _, hroll, _⟩ := Database.step_rollbackOne hstep
    have hempty := hquiet txn htxn
    rw [Store.rollbackOne, htxn] at hroll
    simp only [Option.bind_eq_bind, Option.bind_some, hempty, List.getLast?_nil, Option.bind_none] at hroll
    cases hroll
  | garbageCollection =>
    cases hstep
    exact ⟨rfl, List.append_nil _⟩
  | createTable tab colDefs => exact hquiet.elim
  | dropTable tab => exact hquiet.elim
  | createIndex tab colNames unique =>
    rw [Database.step_createIndex hstep]
    exact ⟨rfl, List.append_nil _⟩

/-- All images of a run name the table that is not there. -/
theorem run_log_tab {s s' : LoggedDatabase} {actions : List Action} (h : Runs.run step actions s = some s')
    (hlog : ∀ image ∈ s.log, image.tab = contextTabName) : ∀ image ∈ s'.log, image.tab = contextTabName := by
  induction actions generalizing s with
  | nil =>
    obtain rfl := Option.some.inj h
    exact hlog
  | cons action actions ih =>
    obtain ⟨mid, hstep, hrest⟩ := Option.bind_eq_some_iff.mp h
    obtain ⟨db', _, rfl⟩ := Option.map_eq_some_iff.mp hstep
    apply ih hrest
    intro image himage
    rcases List.mem_append.mp himage with hold | hnew
    · exact hlog image hold
    · exact logOf_tab hnew

/-- In a run that writes no slot the log suffices all along. In any run it suffices in the states where the
slots are as they were at the start, and in no others. -/
theorem sufficient_of_writesNoSlot (db₀ : Database) (actions : List Action) :
    (Runs.AllMeet step Action.WritesNoSlot actions ⟨db₀, []⟩ →
      Runs.Along step (fun _ _ s => Sufficient db₀ s) actions ⟨db₀, []⟩) ∧
    (db₀.store.fhs contextTabName = none → ∀ s, Runs.run step actions ⟨db₀, []⟩ = some s →
      (Sufficient db₀ s ↔ s.db.store.tableFiles = db₀.store.tableFiles)) := by
  constructor
  · intro hquiet
    let inv : LoggedDatabase → Prop := fun s => s.log = [] ∧ s.db.store.tableFiles = db₀.store.tableFiles
    have hstart : inv ⟨db₀, []⟩ := ⟨rfl, rfl⟩
    apply Runs.along_of_allMeet _ hstart hquiet
    intro s action s' ⟨hlog, hfiles⟩ hmeets hstep
    obtain ⟨hfiles', hlog'⟩ := step_kept hmeets hstep
    have hsame := hfiles'.trans hfiles
    have hnone := hlog'.trans hlog
    refine ⟨?_, hnone, hsame⟩
    rw [Sufficient, hnone, hsame]
    rfl
  · intro habsent s hrun
    have hnothing : ∀ image ∈ s.log, ∀ rid, db₀.store.tableFiles.slot image.tab rid = none := by
      intro image himage rid
      rw [run_log_tab hrun (by simp) image himage]
      show (db₀.store.slot contextTabName rid).map RmRecord.slotBytes = none
      rw [Store.slot, habsent]
      rfl
    rw [Sufficient, TableFiles.foldl_redo_absent hnothing]
    exact eq_comm

/-- An INSERT with too few values writes nothing. -/
theorem sufficient_of_writesNoSlot_refused :
    Runs.Along step (fun _ _ s => Sufficient (Database.emptyTables 1 ["t"]) s)
      [.begin, .stmt 0 (.insert "t" []), .commit 0] ⟨Database.emptyTables 1 ["t"], []⟩ := by
  apply (sufficient_of_writesNoSlot _ _).1
  refine ⟨trivial, fun s₁ h₁ => ⟨?_, fun s₂ h₂ => ⟨?_, fun _ _ => trivial⟩⟩⟩
  · obtain ⟨db₁, hdb₁, rfl⟩ := Option.map_eq_some_iff.mp h₁
    obtain rfl := Option.some.inj hdb₁
    intro txn _ tabMeta fh data htab _ hcount
    obtain rfl : _ = tabMeta := Option.some.inj htab
    cases hcount
  · obtain ⟨db₁, hdb₁, rfl⟩ := Option.map_eq_some_iff.mp h₁
    obtain rfl := Option.some.inj hdb₁
    obtain ⟨db₂, hdb₂, rfl⟩ := Option.map_eq_some_iff.mp h₂
    obtain rfl := Option.some.inj hdb₂
    intro txn htxn
    obtain rfl := Option.some.inj htxn
    exact fun _ hw => absurd hw List.not_mem_nil

/-- The row that an INSERT has written is not in the table that its log record names. -/
theorem not_sufficient_insert : ¬∀ (db₀ : Database) (actions : List Action) (s : LoggedDatabase),
    Runs.run step actions ⟨db₀, []⟩ = some s → Sufficient db₀ s := by
  intro hclaim
  obtain ⟨s, hrun, hused, hredone⟩ : ∃ s, Runs.run step [.begin, .stmt 0 (.insert "t" [.int 1, .int 5])]
        ⟨Database.emptyTables 1 ["t"], []⟩ = some s ∧ s.db.store.occupied "t" ⟨1, 0⟩ = true ∧
      (s.log.foldl TableFiles.redo (Database.emptyTables 1 ["t"]).store.tableFiles).occupied "t" ⟨1, 0⟩ = false :=
    ⟨_, rfl, rfl, rfl⟩
  have hsame := hclaim _ _ s hrun
  rw [hsame] at hredone
  exact Bool.false_ne_true (hredone.symm.trans hused)

end LoggedDatabase
end Rmdb
