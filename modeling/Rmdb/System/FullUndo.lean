import Rmdb.System.GarbageCollection

/-! An abort against what the statements of its transaction have done to the files and the indexes. -/
namespace Rmdb

open Program Database TransactionManager

/-! ### The pages of the files -/

/-- The slots, bitmaps and record counts of all pages, without the list of free pages. -/
def RmFileHandle.contents (fh : RmFileHandle) : RmFileHandle :=
  { fh with firstFreePageNo := rmNoPage, nextFreePageNo := fun _ => rmNoPage }

abbrev Files := String → Option RmFileHandle

def SameContents (fhs fhs' : Files) : Prop :=
  ∀ tab, (fhs tab).map (·.contents) = (fhs' tab).map (·.contents)

theorem SameContents.refl (fhs : Files) : SameContents fhs fhs := fun _ => rfl

theorem SameContents.trans {fhs₁ fhs₂ fhs₃ : Files} (h : SameContents fhs₁ fhs₂)
    (h' : SameContents fhs₂ fhs₃) : SameContents fhs₁ fhs₃ := fun tab => (h tab).trans (h' tab)

theorem SameContents.update {fhs : Files} {tab : String} {fh fh' : RmFileHandle} (hfh : fhs tab = some fh)
    (h : fh'.contents = fh.contents) : SameContents (Function.update fhs tab (some fh')) fhs := by
  intro t
  by_cases ht : t = tab
  · subst ht
    rw [Function.update_self, hfh, Option.map_some, Option.map_some, h]
  · rw [Function.update_of_ne ht]

/-! ### Undoing a write set -/

def undoOne (w : WriteRecord) (fhs : Files) : Files :=
  match fhs w.tabName with
  | none => fhs
  | some fh => Function.update fhs w.tabName (some (Store.undoWrite w fh))

/-- The last write is undone first. -/
def undoAll (ws : List WriteRecord) (fhs : Files) : Files := ws.foldr undoOne fhs

theorem undoAll_append (ws : List WriteRecord) (w : WriteRecord) (fhs : Files) :
    undoAll (ws ++ [w]) fhs = undoAll ws (undoOne w fhs) := List.foldr_append

namespace RmFileHandle

/-- Whether the page is released makes no difference. -/
theorem contents_of_delete (fh : RmFileHandle) (rid : Rid) :
    (fh.deleteRecord rid).contents = (if fh.isRecord rid then fh.clear rid else fh).contents := by
  unfold deleteRecord
  split
  · dsimp only
    split <;> rfl
  · rfl

theorem contents_deleteRecord (fh : RmFileHandle) (rid : Rid) :
    (fh.deleteRecord rid).contents = (fh.contents.deleteRecord rid).contents := by
  rw [contents_of_delete, contents_of_delete]
  change (if fh.isRecord rid then _ else _ : RmFileHandle).contents =
    (if fh.isRecord rid then _ else _ : RmFileHandle).contents
  split <;> rfl

theorem contents_updateRecord (fh : RmFileHandle) (rid : Rid) (rec_ : RmRecord) :
    (fh.updateRecord rid rec_).contents = (fh.contents.updateRecord rid rec_).contents := by
  unfold updateRecord
  change (if fh.hasPage rid.pageNo then _ else _ : RmFileHandle).contents =
    (if fh.hasPage rid.pageNo then _ else _ : RmFileHandle).contents
  split <;> rfl

theorem contents_insertRecordAt (fh : RmFileHandle) (rid : Rid) (rec_ : RmRecord) :
    (fh.insertRecordAt rid rec_).contents = (fh.contents.insertRecordAt rid rec_).contents := by
  unfold insertRecordAt
  change (if fh.createNewPageHandle.2.hasPage rid.pageNo then _ else _ : RmFileHandle).contents =
    (if fh.createNewPageHandle.2.hasPage rid.pageNo then _ else _ : RmFileHandle).contents
  split
  · dsimp only
    split <;> split <;> rfl
  · rfl

theorem contents_undoWrite {fh fh' : RmFileHandle} (w : WriteRecord) (h : fh.contents = fh'.contents) :
    (Store.undoWrite w fh).contents = (Store.undoWrite w fh').contents := by
  unfold Store.undoWrite
  cases w.wtype with
  | insertTuple =>
    dsimp only
    rw [contents_deleteRecord, h, ← contents_deleteRecord]
  | deleteTuple =>
    dsimp only
    rw [contents_insertRecordAt, h, ← contents_insertRecordAt]
  | updateTuple =>
    dsimp only
    rw [contents_updateRecord, h, ← contents_updateRecord]

theorem updateRecord_undo {fh : RmFileHandle} {rid : Rid} (rec_ : RmRecord) :
    (fh.updateRecord rid rec_).updateRecord rid (fh.record rid) = fh := by
  unfold RmFileHandle.updateRecord
  by_cases hpage : fh.hasPage rid.pageNo
  · have hpage' : ({ fh with slots := Function.update fh.slots rid rec_ } : RmFileHandle).hasPage rid.pageNo :=
      hpage
    rw [if_pos hpage, if_pos hpage']
    simp only [Function.update_idem, RmFileHandle.record, if_pos hpage, Function.update_eq_self]
  · rw [if_neg hpage, if_neg hpage]

end RmFileHandle

theorem SameContents.undoAll {fhs fhs' : Files} (ws : List WriteRecord) (h : SameContents fhs fhs') :
    SameContents (undoAll ws fhs) (undoAll ws fhs') := by
  induction ws with
  | nil => exact h
  | cons w ws ih =>
    intro tab
    have htab := ih tab
    have hw := ih w.tabName
    change (undoOne w (Rmdb.undoAll ws fhs) tab).map _ = (undoOne w (Rmdb.undoAll ws fhs') tab).map _
    unfold undoOne
    cases hfh : Rmdb.undoAll ws fhs w.tabName with
    | none =>
      rw [hfh, Option.map_none, eq_comm, Option.map_eq_none_iff] at hw
      rw [hw]
      exact htab
    | some fh =>
      rw [hfh, Option.map_some, eq_comm, Option.map_eq_some_iff] at hw
      obtain ⟨fh', hfh', hcontents⟩ := hw
      rw [hfh']
      by_cases ht : tab = w.tabName
      · subst ht
        simp only [Function.update_self, Option.map_some,
          RmFileHandle.contents_undoWrite w hcontents]
      · simp only [Function.update_of_ne ht]
        exact htab

namespace Store

variable {s s' : Store} {txnId : ℤ} {txn cur : Transaction} {tab : String} {rid : Rid} {fhs : Files}

theorem rollbackAll_fhs {ws : List WriteRecord} (hcur : s.txnMgr.getTransaction txnId = some cur)
    (hws : cur.writeSet = ws) (h : rollbackAll txnId ws.length s = some s') :
    s'.fhs = undoAll ws s.fhs := by
  induction ws using List.reverseRecOn generalizing s cur with
  | nil =>
    obtain rfl : s = s' := Option.some.inj h
    rfl
  | append_singleton ws w ih =>
    obtain ⟨s₁, fh, hfh, hfhs, -, hcur₁, hall⟩ := rollbackAll_append hcur hws h
    rw [ih hcur₁ rfl hall, undoAll_append, hfhs]
    congr 1
    simp only [undoOne, hfh]

/-- Undoing the write set of the transaction gives the files as they were. -/
def Restores (s : Store) (fhs : Files) (txnId : ℤ) : Prop :=
  ∀ cur ∈ s.txnMgr.txnMap, cur.txnId = txnId → SameContents (undoAll cur.writeSet s.fhs) fhs

theorem undoOne_update {fh : RmFileHandle} (hfh : s.fhs tab = some fh) (rec_ : RmRecord) :
    undoOne ⟨.updateTuple, tab, rid, fh.record rid⟩
      (Function.update s.fhs tab (some (fh.updateRecord rid rec_))) = s.fhs := by
  simp only [undoOne, Function.update_self, undoWrite, RmFileHandle.updateRecord_undo, Function.update_idem]
  rw [← hfh, Function.update_eq_self]

/-- A step that leaves the contents of the files and adds nothing to the write set. -/
theorem Restores.logged {log : UndoLog} (h : s.Restores fhs txn.txnId)
    (hlogged : s.txnMgr.Logged s'.txnMgr txn.txnId log []) (hfhs : SameContents s'.fhs s.fhs) :
    s'.Restores fhs txn.txnId := by
  intro new hnew hid
  obtain ⟨old, hold, hid', -, -, hws⟩ := hlogged.mem_fields hnew
  rw [ite_self, List.append_nil] at hws
  rw [hws]
  exact (hfhs.undoAll _).trans (h old hold (hid'.symm.trans hid))

theorem Restores.appendUndoLog {log : UndoLog} (h : s.Restores fhs txn.txnId) :
    (s.appendUndoLog txn log).Restores fhs txn.txnId := by
  intro new hnew hid
  obtain ⟨old, hold, rfl⟩ := mem_modifyTxn hnew
  split at hid
  · rw [if_pos ‹_›]
    exact h old hold hid
  · rw [if_neg ‹_›]
    exact h old hold hid

theorem Restores.installVersion {fh : RmFileHandle} {link : UndoLink} {rec_ : RmRecord}
    (h : s.Restores fhs txn.txnId) (hfh : s.fhs tab = some fh) :
    (s.installVersion txn tab fh .updateTuple rid link rec_).Restores fhs txn.txnId := by
  intro new hnew hid
  obtain ⟨old, hold, rfl⟩ := mem_modifyTxn hnew
  by_cases hown : old.txnId = txn.txnId
  · rw [if_pos hown]
    change SameContents (undoAll (old.writeSet ++ [_]) (Function.update s.fhs tab _)) fhs
    rw [undoAll_append, undoOne_update hfh]
    exact h old hold hown
  · rw [if_neg hown] at hid
    exact absurd hid hown

end Store

/-! ### Statements that an abort undoes -/

/-- What an INSERT checks before it writes. -/
def insertChecks (db : Database) (txn : Transaction) (tabMeta : TabMeta) (fh : RmFileHandle)
    (values : List Value) : Except DbError Bytes := do
  if values.length ≠ tabMeta.cols.length then throw (.rmdb .invalidValueCount)
  let data ← encodeRow fh.recordSize tabMeta.cols values
  checkPrimaryKey db.store txn fh tabMeta data
  return data

/-- An INSERT that writes takes everything back itself: no page is made, a slot that it frees again
was empty, and where there are indexes the first of them refuses the row. -/
structure TakenBack (db : Database) (tab : String) (tabMeta : TabMeta) (fh : RmFileHandle) (data : Bytes) :
    Prop where
  page : 0 ≤ fh.firstFreePageNo ∧ fh.hasPage fh.firstFreePageNo
  empty : ∀ slotNo ∈ fh.firstFreeSlot fh.firstFreePageNo,
    fh.slots ⟨fh.firstFreePageNo, slotNo⟩ = zeroRecord fh.recordSize
  full : tabMeta.indexes = [] → fh.firstFreeSlot fh.firstFreePageNo = none
  refused : ∀ index ∈ tabMeta.indexes.head?, ∀ ih ∈ db.ihs (getIndexName tab index),
    (ih.insertEntry index.compare (index.key data) (fh.insertRecord fun _ => zeroRecord fh.recordSize).1).isOk = false

/-- The first removal of an entry when a key changes. -/
def firstRemoval (db : Database) (tab : String) (indexes : List IndexMeta) (old new : Bytes) :
    Except DbError Unit :=
  match indexes.find? fun index => index.key new ≠ index.key old with
  | none => return ()
  | some index =>
    match db.ihs (getIndexName tab index) with
    | none => throw .crash
    | some ih => do
      let _ ← (ih.deleteEntry index.compare true (index.key old)).mapError IxError.toDbError

/-- The new data of a row, after the checks that an UPDATE makes before it changes anything. -/
def checkedUpdate (db : Database) (tab : String) (tabMeta : TabMeta) (setClauses : List SetClause)
    (old data : Bytes) : Except DbError Bytes := do
  let new ← applySetClauses tabMeta setClauses old data
  (runFrom (checkUniqueKeys tab tabMeta.indexes old new) db).1
  firstRemoval db tab tabMeta.indexes old new
  return new

/-- The old and the new data of a row that an UPDATE goes on to write. -/
def rowUpdate (db : Database) (txn : Transaction) (tab : String) (tabMeta : TabMeta)
    (setClauses : List SetClause) (rid : Rid) : Except DbError (Option (Bytes × Bytes)) :=
  match db.store.fhs tab with
  | none => throw .crash
  | some fh => do
    if fh.checkWriteWriteConflict db.store.txnMgr txn rid then throw .transactionAbort
    match ← fh.getRecordMvcc db.store.txnMgr txn.startTs rid with
    | none => if fh.hasPage rid.pageNo then throw .transactionAbort else return none
    | some old =>
      let new ← checkedUpdate db tab tabMeta setClauses old.data (fh.record rid).row.bytes
      return some (old.data, new)

/-- The rows that an UPDATE writes until it throws. -/
def rowUpdates (db : Database) (txn : Transaction) (tab : String) (tabMeta : TabMeta)
    (setClauses : List SetClause) : List Rid → List (Bytes × Bytes)
  | [] => []
  | rid :: rids =>
    match rowUpdate db txn tab tabMeta setClauses rid with
    | .error _ => []
    | .ok none => rowUpdates db txn tab tabMeta setClauses rids
    | .ok (some change) => change :: rowUpdates db txn tab tabMeta setClauses rids

/-- An abort leaves no trace of the statement: an INSERT does not get to write or takes all of it
back, a DELETE does not get to write, and an UPDATE keeps all keys. -/
def Statement.Undoable (db : Database) (txn : Transaction) (stmt : Statement) : Prop :=
  ∀ tabMeta ∈ db.tabs stmt.tab, ∀ fh ∈ db.store.fhs stmt.tab,
    match stmt with
    | .insert tab values =>
      ∀ data ∈ (insertChecks db txn tabMeta fh values).toOption, TakenBack db tab tabMeta fh data
    | .update tab setClauses conds =>
      ∀ change ∈ rowUpdates db txn tab tabMeta setClauses (updateRids fh conds),
        ∀ index ∈ tabMeta.indexes, index.key change.2 = index.key change.1
    | .delete tab conds plan =>
      ∀ rid ∈ ((deleteRids db txn tab fh conds plan).toOption.getD []).head?,
        fh.checkWriteWriteConflict db.store.txnMgr txn rid = true

instance (db : Database) (tab : String) (tabMeta : TabMeta) (fh : RmFileHandle) (data : Bytes) :
    Decidable (TakenBack db tab tabMeta fh data) :=
  decidable_of_iff
    ((0 ≤ fh.firstFreePageNo ∧ fh.hasPage fh.firstFreePageNo) ∧
      (∀ slotNo ∈ fh.firstFreeSlot fh.firstFreePageNo,
        fh.slots ⟨fh.firstFreePageNo, slotNo⟩ = zeroRecord fh.recordSize) ∧
      (tabMeta.indexes = [] → fh.firstFreeSlot fh.firstFreePageNo = none) ∧
      ∀ index ∈ tabMeta.indexes.head?, ∀ ih ∈ db.ihs (getIndexName tab index),
        (ih.insertEntry index.compare (index.key data)
          (fh.insertRecord fun _ => zeroRecord fh.recordSize).1).isOk = false)
    ⟨fun h => ⟨h.1, h.2.1, h.2.2.1, h.2.2.2⟩, fun h => ⟨h.page, h.empty, h.full, h.refused⟩⟩

instance (db : Database) (txn : Transaction) (stmt : Statement) : Decidable (stmt.Undoable db txn) :=
  match stmt with
  | .insert _ _ | .update _ _ _ | .delete _ _ _ => by dsimp only [Statement.Undoable]; infer_instance

/-- What a statement of `txn` has to leave when an abort is to undo it. -/
structure Undone (txn : Transaction) (fhs : Files) (db db' : Database) : Prop where
  ihs : db'.ihs = db.ihs
  restores : db.store.Restores fhs txn.txnId → db'.store.Restores fhs txn.txnId

section undone
variable {txn : Transaction} {fhs : Files} {db db' : Database} {tab : String} {tabMeta : TabMeta}

theorem Undone.refl (db : Database) : Undone txn fhs db db := ⟨rfl, id⟩

theorem Undone.trans {db₁ db₂ db₃ : Database} (h : Undone txn fhs db₁ db₂) (h' : Undone txn fhs db₂ db₃) :
    Undone txn fhs db₁ db₃ := ⟨h'.ihs.trans h.ihs, fun hr => h'.restores (h.restores hr)⟩

private theorem runFrom_indexHandle (name : String) (db : Database) :
    runFrom (DbM.indexHandle name) db =
      (match db.ihs name with
        | some ih => .ok ih
        | none => .error .crash, db) := by
  cases h : db.ihs name <;> simp [DbM.indexHandle, runFrom_bind, h]

/-! ### INSERT -/

private theorem insertRecord_full {fh : RmFileHandle} {rec : Rid → RmRecord}
    (hpage : 0 ≤ fh.firstFreePageNo ∧ fh.hasPage fh.firstFreePageNo)
    (hfull : fh.firstFreeSlot fh.firstFreePageNo = none) : fh.insertRecord rec = (⟨-1, -1⟩, fh) := by
  unfold RmFileHandle.insertRecord RmFileHandle.createPageHandle
  rw [if_pos hpage]
  dsimp only
  rw [hfull]

private theorem insertRecord_slot {fh : RmFileHandle} {rec : Rid → RmRecord} {slotNo : ℕ}
    (hpage : 0 ≤ fh.firstFreePageNo ∧ fh.hasPage fh.firstFreePageNo)
    (hslot : fh.firstFreeSlot fh.firstFreePageNo = some slotNo) :
    (fh.insertRecord rec).1 = ⟨fh.firstFreePageNo, slotNo⟩ ∧ (fh.insertRecord rec).2.contents =
      (fh.occupy ⟨fh.firstFreePageNo, slotNo⟩ (rec ⟨fh.firstFreePageNo, slotNo⟩)).contents := by
  unfold RmFileHandle.insertRecord RmFileHandle.createPageHandle
  rw [if_pos hpage]
  dsimp only
  rw [hslot]
  refine ⟨rfl, ?_⟩
  dsimp only
  split <;> rfl

private theorem deleteRecord_occupy {fh : RmFileHandle} {rid : Rid} (rec_ : RmRecord)
    (hpage : fh.hasPage rid.pageNo) (hfree : fh.bitmap rid = false)
    (hempty : fh.slots rid = zeroRecord fh.recordSize) :
    ((fh.occupy rid rec_).deleteRecord rid).contents = fh.contents := by
  have hrecord : (fh.occupy rid rec_).isRecord rid = true := by
    rw [RmFileHandle.isRecord_iff]
    exact ⟨hpage, Function.update_self _ _ _⟩
  rw [RmFileHandle.contents_of_delete, if_pos hrecord]
  simp only [RmFileHandle.contents, RmFileHandle.clear, RmFileHandle.occupy, Function.update_idem, Function.update_self,
    add_sub_cancel_right, ← hempty, ← hfree, Function.update_eq_self]

private theorem deleteRecord_insertRecord {fh : RmFileHandle} {rec : Rid → RmRecord}
    (hpage : 0 ≤ fh.firstFreePageNo ∧ fh.hasPage fh.firstFreePageNo)
    (hempty : ∀ slotNo ∈ fh.firstFreeSlot fh.firstFreePageNo,
      fh.slots ⟨fh.firstFreePageNo, slotNo⟩ = zeroRecord fh.recordSize) :
    ((fh.insertRecord rec).2.deleteRecord (fh.insertRecord rec).1).contents = fh.contents := by
  cases hslot : fh.firstFreeSlot fh.firstFreePageNo with
  | none =>
    rw [insertRecord_full hpage hslot]
    have hnot : fh.isRecord ⟨-1, -1⟩ = false := by
      simp [RmFileHandle.isRecord, RmFileHandle.hasPage, rmFirstRecordPage]
    simp [RmFileHandle.deleteRecord, hnot]
  | some slotNo =>
    have hfree : fh.bitmap ⟨fh.firstFreePageNo, slotNo⟩ = false := by
      simpa using List.find?_some hslot
    obtain ⟨hrid, hcontents⟩ := insertRecord_slot hpage hslot
    rw [RmFileHandle.contents_deleteRecord, hcontents, ← RmFileHandle.contents_deleteRecord, hrid]
    exact deleteRecord_occupy _ hpage.2 hfree (hempty slotNo hslot)

/-- The rows of the index come after the row itself: the first index decides. -/
private theorem insertIndexEntries_refused {data : Bytes} {rid : Rid} {index : IndexMeta}
    {indexes : List IndexMeta}
    (hrefused : ∀ ih ∈ db.ihs (getIndexName tab index),
      (ih.insertEntry index.compare (index.key data) rid).isOk = false) :
    ∃ e, runFrom (insertIndexEntries tab (index :: indexes) data rid) db = (.error e, db) := by
  unfold insertIndexEntries
  rw [runFrom_forM_cons, runFrom_bind, runFrom_indexHandle]
  cases hih : db.ihs (getIndexName tab index) with
  | none => exact ⟨.crash, rfl⟩
  | some ih =>
    have herror := hrefused ih hih
    dsimp only
    rw [runFrom_bind, DbM.ofIx, runFrom_ofExcept]
    cases hinsert : ih.insertEntry index.compare (index.key data) rid with
    | ok inserted =>
      rw [hinsert] at herror
      cases herror
    | error e => exact ⟨_, rfl⟩

private theorem insertRow_undone {fh : RmFileHandle} {data : Bytes} (hfh : db.store.fhs tab = some fh)
    (h : TakenBack db tab tabMeta fh data) :
    Undone txn fhs db (runFrom (insertRow txn tab tabMeta fh data) db).2 := by
  let rec_ := Store.insertedRecord txn tab data
  let db₁ : Database := { db with store := (db.store.insertTuple txn tab fh data tabMeta.cols.length).2 }
  have hfhs : db₁.store.fhs = Function.update db.store.fhs tab (some (fh.insertRecord rec_).2) := rfl
  have hlogged : db.store.txnMgr.Logged db₁.store.txnMgr txn.txnId _ [] :=
    TransactionManager.logged_append _ _ (Store.insertLog tabMeta.cols.length (rec_ (fh.insertRecord rec_).1).row) _
  unfold insertRow
  rw [runFrom_bind, runFrom_getStore]
  dsimp only
  rw [runFrom_bind, runFrom_modifyStore]
  dsimp only
  rw [runFrom_tryCatch]
  cases hindexes : tabMeta.indexes with
  | nil =>
    refine ⟨rfl, fun hr => hr.logged hlogged (hfhs ▸ .update hfh ?_)⟩
    rw [insertRecord_full h.page (h.full hindexes)]
  | cons index indexes =>
    obtain ⟨e, hrun⟩ : ∃ e, runFrom (insertIndexEntries tab (index :: indexes) data
        (db.store.insertTuple txn tab fh data tabMeta.cols.length).1) db₁ = (.error e, db₁) := by
      refine insertIndexEntries_refused fun ih hih => ?_
      have hrefused := h.refused index (by rw [hindexes]; rfl) ih hih
      rwa [insertRecord_rid _ (Store.insertedRecord txn tab data)] at hrefused
    rw [hrun]
    dsimp only
    rw [runFrom_bind, runFrom_fileHandle]
    have hnew : db₁.store.fhs tab = some (fh.insertRecord rec_).2 := by rw [hfhs, Function.update_self]
    simp only [hnew, runFrom_bind, runFrom_modifyStore, runFrom_throw]
    refine ⟨rfl, fun hr => hr.logged hlogged ?_⟩
    change SameContents (Function.update db₁.store.fhs tab _) db.store.fhs
    rw [hfhs, Function.update_idem]
    exact .update hfh (deleteRecord_insertRecord h.page h.empty)

private theorem execInsert_undone {values : List Value}
    (h : (Statement.insert tab values).Undoable db txn) :
    Undone txn fhs db (runFrom (execInsert txn tab values) db).2 := by
  unfold execInsert
  simp only [runFrom_bind, runFrom_getTable]
  cases htab : db.tabs tab with
  | none => exact .refl db
  | some tabMeta =>
    dsimp only
    split
    · exact .refl db
    · rename_i hcount
      simp only [runFrom_bind, runFrom_fileHandle]
      cases hfh : db.store.fhs tab with
      | none => exact .refl db
      | some fh =>
        simp only [runFrom_ofExcept]
        cases hdata : encodeRow fh.recordSize tabMeta.cols values with
        | error e => exact .refl db
        | ok data =>
          simp only [runFrom_getStore]
          cases hkey : checkPrimaryKey db.store txn fh tabMeta data with
          | error e => exact .refl db
          | ok _ =>
            refine insertRow_undone hfh (h tabMeta htab fh hfh data ?_)
            unfold insertChecks
            rw [if_neg hcount, hdata]
            change (do
              checkPrimaryKey db.store txn fh tabMeta data
              return data : Except DbError Bytes).toOption = some data
            rw [hkey]
            rfl

/-! ### DELETE -/

private theorem execDelete_undone {conds : Bytes → Bool} {plan : ScanPlan}
    (h : (Statement.delete tab conds plan).Undoable db txn) :
    Undone txn fhs db (runFrom (execDelete txn tab conds plan) db).2 := by
  unfold execDelete
  simp only [runFrom_bind, runFrom_getTable]
  cases htab : db.tabs tab with
  | none => exact .refl db
  | some tabMeta =>
    simp only [runFrom_fileHandle]
    cases hfh : db.store.fhs tab with
    | none => exact .refl db
    | some fh =>
      simp only [runFrom_get, runFrom_ofExcept]
      cases hrids : deleteRids db txn tab fh conds plan with
      | error e => exact .refl db
      | ok rids =>
        cases rids with
        | nil => exact .refl db
        | cons rid rids =>
          have hconflict : fh.checkWriteWriteConflict db.store.txnMgr txn rid = true :=
            h tabMeta htab fh hfh rid (by rw [hrids]; rfl)
          obtain ⟨view, hview⟩ : ∃ view, fh.getRecordMvcc db.store.txnMgr txn.startTs rid = .ok (some view) := by
            unfold deleteRids at hrids
            cases hplan : planRids db tab fh plan with
            | error e =>
              rw [hplan] at hrids
              cases hrids
            | ok planned =>
              rw [hplan] at hrids
              have hpass := (of_mem_filterM hrids List.mem_cons_self).2
              cases hread : fh.getRecordMvcc db.store.txnMgr txn.startTs rid with
              | error e =>
                rw [hread] at hpass
                cases hpass
              | ok view =>
                rw [hread] at hpass
                cases view with
                | none => cases hpass
                | some view => exact ⟨view, rfl⟩
          have hrow : runFrom (deleteRow txn tab tabMeta rid) db = (.error .transactionAbort, db) := by
            simp only [deleteRow, runFrom_bind, runFrom_getStore, runFrom_fileHandle, hfh, runFrom_ofExcept,
              hview, hconflict, if_true, runFrom_throw]
          simp only [runFrom_forM_cons, hrow]
          exact .refl db

/-! ### UPDATE -/

private theorem indexHandle_observes (name : String) : Observes Database.ihs (DbM.indexHandle name) :=
  ⟨fun ihs => match ihs name with
    | some ih => .ok ih
    | none => .error .crash, runFrom_indexHandle name⟩

/-- The check looks at the indexes only. -/
private theorem checkUniqueKeys_observes (tab : String) (indexes : List IndexMeta) (old new : Bytes) :
    Observes Database.ihs (checkUniqueKeys tab indexes old new) := by
  refine .forM fun index _ => ?_
  split
  · refine .bind (indexHandle_observes _) fun ih => ?_
    split
    · refine .bind (.ofExcept _) fun found => ?_
      split
      · exact .throw _
      · exact .pure _
    · exact .pure _
  · exact .pure _

/-- Where no key changes, no index does. -/
private theorem moveIndexEntries_observes (tab : String) (indexes : List IndexMeta) (rid : Rid)
    {old new : Bytes} (hkeys : ∀ index ∈ indexes, index.key new = index.key old) :
    Observes Database.ihs (moveIndexEntries tab indexes rid old new) := by
  refine .forM fun index hindex => .bind (indexHandle_observes _) fun ih => ?_
  rw [if_neg (not_not.mpr (hkeys index hindex))]
  exact .pure _

private theorem moveIndexEntries_throws (tab : String) (indexes : List IndexMeta) (rid : Rid) {old new : Bytes}
    (hkeys : ∀ index ∈ indexes, index.key new = index.key old) :
    Throws (· = .crash) (moveIndexEntries tab indexes rid old new) := by
  refine .forM fun index hindex => .bind ?_ fun ih => ?_
  · intro db e he
    rw [runFrom_indexHandle] at he
    cases h : db.ihs (getIndexName tab index) with
    | none =>
      rw [h] at he
      cases he
      rfl
    | some ih =>
      rw [h] at he
      cases he
  · rw [if_neg (not_not.mpr (hkeys index hindex))]
    exact .pure _

private theorem moveIndexEntries_error {indexes : List IndexMeta} {rid : Rid} {old new : Bytes}
    {e : DbError} (h : firstRemoval db tab indexes old new = .error e) (hihs : db'.ihs = db.ihs) :
    ∃ e', runFrom (moveIndexEntries tab indexes rid old new) db' = (.error e', db') := by
  induction indexes with
  | nil => cases h
  | cons index indexes ih =>
    unfold moveIndexEntries
    rw [runFrom_forM_cons, runFrom_bind, runFrom_indexHandle, hihs]
    cases hhandle : db.ihs (getIndexName tab index) with
    | none => exact ⟨.crash, rfl⟩
    | some handle =>
      dsimp only
      unfold firstRemoval at h
      by_cases hkey : index.key new ≠ index.key old
      · rw [List.find?_cons_of_pos (by simpa using hkey)] at h
        dsimp only at h
        rw [hhandle] at h
        dsimp only at h
        rw [if_pos hkey]
        cases hdelete : handle.deleteEntry index.compare true (index.key old) with
        | ok deleted =>
          rw [hdelete] at h
          cases h
        | error e' => exact ⟨_, rfl⟩
      · rw [List.find?_cons_of_neg (by simpa using hkey)] at h
        rw [if_neg hkey]
        exact ih h

/-- A row is prepared in a database that differs from the one before in an undo log. -/
private theorem prepareUpdate_undone (tab : String) (tabMeta : TabMeta) (setClauses : List SetClause) (rid : Rid)
    (old data : Bytes) (hihs : db'.ihs = db.ihs) :
    let (r, db'') := runFrom (prepareUpdate tab tabMeta setClauses rid old data) db'
    match checkedUpdate db tab tabMeta setClauses old data with
    | .error _ => (∃ e, r = .error e) ∧ db'' = db'
    | .ok new => (∀ index ∈ tabMeta.indexes, index.key new = index.key old) →
      (r = .ok new ∨ r = .error .crash) ∧ db'' = db' := by
  unfold prepareUpdate checkedUpdate
  rw [runFrom_bind, runFrom_ofExcept]
  cases hset : applySetClauses tabMeta setClauses old data with
  | error e => exact ⟨⟨e, rfl⟩, rfl⟩
  | ok new =>
    have hcheck := (checkUniqueKeys_observes tab tabMeta.indexes old new).congr hihs
    have hsame := (checkUniqueKeys_observes tab tabMeta.indexes old new).unchanged db'
    dsimp only
    rw [runFrom_bind]
    generalize runFrom (checkUniqueKeys tab tabMeta.indexes old new) db' = checked at hcheck hsame ⊢
    obtain ⟨r, mid⟩ := checked
    obtain rfl : mid = db' := hsame
    change r = _ at hcheck
    change match (do
      (runFrom (checkUniqueKeys tab tabMeta.indexes old new) db).1
      firstRemoval db tab tabMeta.indexes old new
      return new : Except DbError Bytes) with | .error _ => _ | .ok _ => _
    rw [← hcheck]
    cases r with
    | error e => exact ⟨⟨e, rfl⟩, rfl⟩
    | ok _ =>
      dsimp only
      rw [runFrom_bind]
      cases hremoval : firstRemoval db tab tabMeta.indexes old new with
      | error e =>
        obtain ⟨e', hmove⟩ := moveIndexEntries_error hremoval hihs
        rw [hmove]
        exact ⟨⟨e', rfl⟩, rfl⟩
      | ok _ =>
        intro hkeys
        have hmove := (moveIndexEntries_observes tab tabMeta.indexes rid hkeys).unchanged mid
        have hthrown := moveIndexEntries_throws tab tabMeta.indexes rid hkeys mid
        generalize runFrom (moveIndexEntries tab tabMeta.indexes rid old new) mid = moved at hmove hthrown ⊢
        obtain ⟨e | r, mid'⟩ := moved
        · exact ⟨.inr (congrArg _ (hthrown e rfl)), hmove⟩
        · exact ⟨.inl rfl, hmove⟩

private theorem rowUpdate_view (tabMeta : TabMeta) (setClauses : List SetClause) {rid : Rid} {fh : RmFileHandle}
    {view : Option RecordView} (hfh : db.store.fhs tab = some fh)
    (hconflict : fh.checkWriteWriteConflict db.store.txnMgr txn rid = false)
    (hread : fh.getRecordMvcc db.store.txnMgr txn.startTs rid = .ok view) :
    rowUpdate db txn tab tabMeta setClauses rid =
      match view with
      | none => if fh.hasPage rid.pageNo then .error .transactionAbort else .ok none
      | some old => (checkedUpdate db tab tabMeta setClauses old.data (fh.record rid).row.bytes).map
          fun new => some (old.data, new) := by
  unfold rowUpdate
  rw [hfh]
  cases view with
  | none =>
    dsimp only
    rw [hconflict, hread]
    rfl
  | some old =>
    dsimp only
    rw [hconflict, hread]
    rfl

/-- What an UPDATE makes of one row, when the row keeps its index keys. -/
inductive RowOutcome (db : Database) (txn : Transaction) (tab : String) (tabMeta : TabMeta)
    (setClauses : List SetClause) (rid : Rid) : Except DbError Unit → Database → Prop where
  | stopped {e : DbError} (hstop : (∃ e', rowUpdate db txn tab tabMeta setClauses rid = .error e') ∨ e = .crash) :
    RowOutcome db txn tab tabMeta setClauses rid (.error e) db
  | stoppedLogged {e : DbError} (log : UndoLog)
    (hstop : (∃ e', rowUpdate db txn tab tabMeta setClauses rid = .error e') ∨ e = .crash) :
    RowOutcome db txn tab tabMeta setClauses rid (.error e) { db with store := db.store.appendUndoLog txn log }
  | skipped (hskip : rowUpdate db txn tab tabMeta setClauses rid = .ok none) :
    RowOutcome db txn tab tabMeta setClauses rid (.ok ()) db
  | written {fh : RmFileHandle} {change : Bytes × Bytes} (log : UndoLog)
    (hwrite : rowUpdate db txn tab tabMeta setClauses rid = .ok (some change))
    (hfh : db.store.fhs tab = some fh) (hpage : fh.hasPage rid.pageNo) :
    RowOutcome db txn tab tabMeta setClauses rid (.ok ()) { db with
      store := (db.store.appendUndoLog txn log).installVersion txn tab fh .updateTuple rid
        (db.store.txnMgr.nextUndoLink txn.txnId) (updatedRecord txn tab rid change.2) }

theorem updateRow_outcome {setClauses : List SetClause} {rid : Rid}
    (hkeys : ∀ change, rowUpdate db txn tab tabMeta setClauses rid = .ok (some change) →
      ∀ index ∈ tabMeta.indexes, index.key change.2 = index.key change.1) :
    let (r, db') := runFrom (updateRow txn tab tabMeta setClauses rid) db
    RowOutcome db txn tab tabMeta setClauses rid r db' := by
  unfold updateRow
  simp only [runFrom_bind, runFrom_getStore, runFrom_fileHandle]
  cases hfh : db.store.fhs tab with
  | none => exact .stopped (.inr rfl)
  | some fh =>
    cases hconflict : fh.checkWriteWriteConflict db.store.txnMgr txn rid with
    | true =>
      simp only [hconflict, if_true, runFrom_bind, runFrom_throw]
      refine .stopped (.inl ⟨.transactionAbort, ?_⟩)
      unfold rowUpdate
      rw [hfh]
      dsimp only
      rw [hconflict]
      rfl
    | false =>
      simp only [hconflict, Bool.false_eq_true, if_false, runFrom_bind, runFrom_ofExcept]
      cases hread : fh.getRecordMvcc db.store.txnMgr txn.startTs rid with
      | error e =>
        refine .stopped (.inl ⟨e, ?_⟩)
        unfold rowUpdate
        rw [hfh]
        dsimp only
        rw [hconflict, hread]
        rfl
      | ok view =>
        have hrow := rowUpdate_view tabMeta setClauses hfh hconflict hread
        cases view with
        | none =>
          dsimp only at hrow ⊢
          by_cases hpage : fh.hasPage rid.pageNo
          · rw [if_pos hpage] at hrow ⊢
            exact .stopped (.inl ⟨_, hrow⟩)
          · rw [if_neg hpage] at hrow ⊢
            exact .skipped hrow
        | some old =>
          dsimp only at hrow
          let log := updateLog tabMeta (fh.record rid) old (db.store.txnMgr.getUndoLink rid)
          let db₁ : Database := { db with store := db.store.appendUndoLog txn log }
          have hprepare := prepareUpdate_undone tab tabMeta setClauses rid old.data (fh.record rid).row.bytes
            (show db₁.ihs = db.ihs from rfl)
          simp only [runFrom_bind, runFrom_modifyStore]
          generalize runFrom (prepareUpdate tab tabMeta setClauses rid old.data (fh.record rid).row.bytes)
            { db with store := db.store.appendUndoLog txn log } = prepared at hprepare ⊢
          obtain ⟨r, db₂⟩ := prepared
          cases hcheck : checkedUpdate db tab tabMeta setClauses old.data (fh.record rid).row.bytes with
          | error e =>
            rw [hcheck] at hprepare hrow
            obtain ⟨⟨e', rfl⟩, rfl⟩ := hprepare
            exact .stoppedLogged log (.inl ⟨e, hrow⟩)
          | ok new =>
            rw [hcheck] at hprepare hrow
            obtain ⟨hr, rfl⟩ : _ ∧ db₂ = db₁ := hprepare (hkeys _ hrow)
            obtain rfl | rfl := hr
            · exact .written log hrow hfh (RmFileHandle.getRecordMvcc_page hread).2
            · exact .stoppedLogged log (.inr rfl)

theorem RowOutcome.undone {setClauses : List SetClause} {rid : Rid} {r : Except DbError Unit} (fhs : Files)
    (h : RowOutcome db txn tab tabMeta setClauses rid r db') : Undone txn fhs db db' := by
  cases h with
  | stopped => exact .refl db
  | stoppedLogged log => exact ⟨rfl, Store.Restores.appendUndoLog⟩
  | skipped => exact .refl db
  | written log hwrite hfh => exact ⟨rfl, fun hr => Store.Restores.installVersion hr.appendUndoLog hfh⟩

theorem RowOutcome.stops {setClauses : List SetClause} {rid : Rid} {r : Except DbError Unit} {e : DbError}
    (h : RowOutcome db txn tab tabMeta setClauses rid r db')
    (he : rowUpdate db txn tab tabMeta setClauses rid = .error e) : ∃ e', r = .error e' := by
  cases h with
  | stopped => exact ⟨_, rfl⟩
  | stoppedLogged => exact ⟨_, rfl⟩
  | skipped hskip =>
    rw [hskip] at he
    cases he
  | written log hwrite =>
    rw [hwrite] at he
    cases he

/-- A row is updated as before the statement has gone through other rows. -/
theorem rowUpdate_congr {setClauses : List SetClause} {rid : Rid} {target : Rid → Prop}
    {inserting : Prop} (hihs : db'.ihs = db.ihs)
    (hsteps : StmtSteps db.tabs txn tab target inserting db.store db.store db'.store)
    (hc : db.store.txnMgr.Chained) (hrid : ¬target rid) (hpage : db.store.hasPage tab rid.pageNo) :
    rowUpdate db' txn tab tabMeta setClauses rid = rowUpdate db txn tab tabMeta setClauses rid := by
  obtain ⟨hread, hpage'⟩ := StmtSteps.getRecordMvcc hsteps hc hrid hpage
  have hslot := StmtSteps.slot (t := tab) hsteps fun h => hrid h.2
  obtain ⟨fh, hfh, hpage⟩ := hpage
  obtain ⟨fh', hfh', hpage'⟩ := hpage'
  have hrecord : fh'.record rid = fh.record rid := by
    rw [Store.slot_eq hfh, Store.slot_eq hfh'] at hslot
    exact Option.some.inj hslot
  simp only [Store.getRecordMvcc, hfh, hfh'] at hread
  have hconflict := (StmtSteps.inert hsteps).checkWriteWriteConflict txn hpage hpage' hrecord
  have hchecked : ∀ old data, checkedUpdate db' tab tabMeta setClauses old data =
      checkedUpdate db tab tabMeta setClauses old data := by
    intro old data
    unfold checkedUpdate firstRemoval
    simp only [(checkUniqueKeys_observes tab tabMeta.indexes old _).congr hihs, hihs]
  unfold rowUpdate
  rw [hfh, hfh']
  dsimp only
  rw [hconflict, hread, hrecord]
  simp only [hchecked, hpage, hpage']

theorem rowUpdates_congr {setClauses : List SetClause} {rids : List Rid}
    (h : ∀ rid ∈ rids, rowUpdate db' txn tab tabMeta setClauses rid = rowUpdate db txn tab tabMeta setClauses rid) :
    rowUpdates db' txn tab tabMeta setClauses rids = rowUpdates db txn tab tabMeta setClauses rids := by
  induction rids with
  | nil => rfl
  | cons rid rids ih =>
    unfold rowUpdates
    rw [h rid List.mem_cons_self, ih fun r hr => h r (List.mem_cons_of_mem rid hr)]

private theorem updateRows_undone {setClauses : List SetClause} {rids : List Rid} (hnodup : rids.Nodup)
    (hc : db.store.txnMgr.Chained) (hruns : db.store.Runs txn) (htab : db.tabs tab = some tabMeta)
    (hpages : ∀ rid ∈ rids, db.store.hasPage tab rid.pageNo)
    (hkeys : ∀ change ∈ rowUpdates db txn tab tabMeta setClauses rids,
      ∀ index ∈ tabMeta.indexes, index.key change.2 = index.key change.1) :
    Undone txn fhs db (runFrom (rids.forM (updateRow txn tab tabMeta setClauses)) db).2 := by
  induction rids generalizing db with
  | nil => exact .refl db
  | cons rid rids ih =>
    obtain ⟨hnot, hnodup⟩ := List.nodup_cons.mp hnodup
    unfold rowUpdates at hkeys
    have hrow := updateRow_outcome fun change (hchange : rowUpdate db txn tab tabMeta setClauses rid = _) => by
      rw [hchange] at hkeys
      exact hkeys change List.mem_cons_self
    have hsteps :
        Steps txn tab (· = rid) False db.store db (runFrom (updateRow txn tab tabMeta setClauses rid) db).2 := by
      apply updateRow_steps
      · rfl
      · exact htab
    rw [runFrom_forM_cons]
    generalize runFrom (updateRow txn tab tabMeta setClauses rid) db = out at hrow hsteps ⊢
    obtain ⟨_ | _, mid⟩ := out
    · exact hrow.undone fhs
    · have hundone := hrow.undone fhs
      have hmoved := hsteps.2 hruns
      have hrest : rowUpdates mid txn tab tabMeta setClauses rids =
          rowUpdates db txn tab tabMeta setClauses rids :=
        rowUpdates_congr fun r hr => rowUpdate_congr hundone.ihs hmoved hc (fun heq => hnot (heq ▸ hr))
          (hpages r (List.mem_cons_of_mem rid hr))
      refine hundone.trans (ih hnodup (StmtSteps.chained hmoved hc) (StmtSteps.runs hmoved hruns)
        (hsteps.1 ▸ htab) (fun r hr => ?_) fun change hchange => ?_)
      · have hread : mid.store.getRecordMvcc tab 0 r = db.store.getRecordMvcc tab 0 r ∧
        mid.store.hasPage tab r.pageNo :=
          StmtSteps.getRecordMvcc hmoved hc (fun heq => hnot (heq ▸ hr)) (hpages r (List.mem_cons_of_mem rid hr))
        exact hread.2
      · rw [hrest] at hchange
        cases hupdate : rowUpdate db txn tab tabMeta setClauses rid with
        | error e =>
          obtain ⟨e', he'⟩ := hrow.stops hupdate
          cases he'
        | ok written =>
          rw [hupdate] at hkeys
          cases written with
          | none => exact hkeys change hchange
          | some first => exact hkeys change (List.mem_cons_of_mem first hchange)

theorem exec_undone (fhs : Files) {stmt : Statement} (hc : db.store.txnMgr.Chained) (hruns : db.store.Runs txn)
    (h : stmt.Undoable db txn) : Undone txn fhs db (runFrom (stmt.exec txn) db).2 := by
  cases stmt with
  | insert tab values => exact execInsert_undone h
  | delete tab conds plan => exact execDelete_undone h
  | update tab setClauses conds =>
    unfold Statement.exec execUpdate
    simp only [runFrom_bind, runFrom_getTable]
    cases htab : db.tabs tab with
    | none => exact .refl db
    | some tabMeta =>
      simp only [runFrom_fileHandle]
      cases hfh : db.store.fhs tab with
      | none => exact .refl db
      | some fh =>
        have hnodup : (updateRids fh conds).Nodup := (RmFileHandle.scanRids_nodup fh).filter _
        refine updateRows_undone hnodup hc hruns htab (fun rid hrid => ?_) (h tabMeta htab fh hfh)
        have hscan := RmFileHandle.mem_scanRids (List.mem_of_mem_filter hrid)
        exact ⟨fh, hfh, (RmFileHandle.isRecord_iff.mp hscan).1⟩

end undone

/-! ### A whole transaction -/

/-- An abort leaves no trace of a statement; other steps heed nothing. -/
def LeavesNoTrace (db : Database) : Action → Prop
  | .stmt txnId stmt => ∀ txn ∈ db.activeTxn txnId, stmt.Undoable db txn
  | _ => True

instance (db : Database) (action : Action) : Decidable (LeavesNoTrace db action) :=
  match action with
  | .stmt _ _ => by dsimp only [LeavesNoTrace]; infer_instance
  | .begin | .commit _ | .abort _ | .markAborted _ | .rollbackOne _ | .garbageCollection | .createTable _ _
  | .dropTable _ | .createIndex _ _ _ => isTrue trivial

/-- The pages of the files and the entries of the indexes are what they were. -/
structure SameData (db db' : Database) : Prop where
  files : SameContents db'.store.fhs db.store.fhs
  ihs : db'.ihs = db.ihs

section abort
variable {db₀ db db' : Database} {txnId : ℤ} {fhs : Files}

theorem restores_begin (h : db.store.txnMgr.Ids) :
    db.store.begin.Restores db.store.fhs db.store.txnMgr.nextTxnId := by
  intro cur hcur hid
  rcases List.mem_append.mp hcur with hold | hnew
  · have := (h.bounds cur hold).2
    omega
  · obtain rfl := List.mem_singleton.mp hnew
    exact .refl _

theorem restores_abort (h : db.store.Restores fhs txnId)
    (hstep : db.step (.abort txnId) = some db') :
    SameContents db'.store.fhs fhs ∧ db'.ihs = db.ihs := by
  obtain ⟨txn, store, htxn, habort, rfl⟩ := step_abort hstep
  obtain ⟨hmem, rfl, -⟩ := activeTxn_mem htxn
  obtain ⟨hget, -⟩ := activeTxn_iff.mp htxn
  have hcur : (db.store.markAborted txn).txnMgr.getTransaction txn.txnId =
      some { txn with state := .aborted } := by
    change (db.store.txnMgr.modifyTxn txn.txnId fun txn => { txn with state := .aborted }).getTransaction
      txn.txnId = _
    rw [getTransaction_modifyTxn_ite, if_pos rfl, hget]
    · rfl
    · exact fun _ => rfl
  have hfhs := Store.rollbackAll_fhs hcur rfl habort
  refine ⟨?_, rfl⟩
  rw [hfhs]
  exact h txn hmem rfl

theorem restores_run {stmts : List Statement}
    (hmarks : db.store.txnMgr.Marks) (h : db.store.Restores fhs txnId)
    (hrun : db.run LeavesNoTrace (stmts.map (.stmt txnId) ++ [.abort txnId]) = some db') :
    SameContents db'.store.fhs fhs ∧ db'.ihs = db.ihs := by
  induction stmts generalizing db with
  | nil =>
    obtain ⟨-, last, hstep, hlast⟩ := run_cons hrun
    obtain rfl : last = db' := Option.some.inj hlast
    exact restores_abort h hstep
  | cons stmt stmts ih =>
    obtain ⟨hallowed, mid, hstep, hrun⟩ := run_cons hrun
    obtain ⟨txn, htxn, hprogram⟩ : ∃ txn, db.activeTxn txnId = some txn ∧
        db.runProgram (stmt.exec txn) = some mid := by
      simpa only [step, Option.bind_eq_bind, Option.bind_eq_some_iff] using hstep
    obtain ⟨hget, -⟩ := activeTxn_iff.mp htxn
    have hid := (mem_of_getTransaction hget).2
    have hundone := exec_undone fhs hmarks.toChained ⟨txn, by rw [hid, hget], rfl, rfl⟩
      (hallowed txn htxn)
    rw [runProgram_eq hprogram] at hundone
    obtain ⟨hfiles, hihs⟩ := ih (marks_step hstep hmarks) (hid ▸ hundone.restores (hid ▸ h)) hrun
    exact ⟨hfiles, hihs.trans hundone.ihs⟩

theorem abort_undoes {n : ℤ} {allowed : Database → Action → Prop} {stmts : List Statement}
    (hstart : db₀.Started n) (hreach : db₀.Reaches allowed db)
    (hrun : db.run LeavesNoTrace (.begin :: stmts.map (.stmt db.store.txnMgr.nextTxnId) ++
      [.abort db.store.txnMgr.nextTxnId]) = some db') : SameData db db' := by
  have hmarks : db.store.txnMgr.Marks := hreach.marks (hstart.txnMgr ▸ marks_init n)
  obtain ⟨-, mid, hstep, hrun⟩ := run_cons hrun
  obtain rfl : { db with store := db.store.begin } = mid := Option.some.inj hstep
  have hrestores := restores_begin hmarks.toChained.ids
  obtain ⟨hfiles, hihs⟩ := restores_run hmarks.begin hrestores hrun
  exact ⟨hfiles, hihs⟩

end abort

/-- Two updates of a column without an index, and an INSERT that the primary key refuses. -/
theorem abort_undoes_updates :
    ∃ db db', (emptyTables 1 ["t"]).run (fun _ _ => True)
        [.createIndex "t" ["a"] true, .begin, .stmt 0 (.insert "t" [.int 1, .int 5]), .commit 0] = some db ∧
      db.run LeavesNoTrace [.begin, .stmt 1 (updateB "t" 1 7), .stmt 1 (updateB "t" 1 8),
        .stmt 1 (.insert "t" [.int 1, .int 9]), .abort 1] = some db' ∧ SameData db db' := by
  let run := (emptyTables 1 ["t"]).run (fun _ _ => True)
    [.createIndex "t" ["a"] true, .begin, .stmt 0 (.insert "t" [.int 1, .int 5]), .commit 0]
  have hnext : run.map (·.store.txnMgr.nextTxnId) = some 1 := by decide +kernel
  have hsome : (run.bind fun db => db.run LeavesNoTrace [.begin, .stmt 1 (updateB "t" 1 7),
      .stmt 1 (updateB "t" 1 8), .stmt 1 (.insert "t" [.int 1, .int 9]), .abort 1]).isSome := by
    decide +kernel
  obtain ⟨db', hrun'⟩ := Option.isSome_iff_exists.mp hsome
  obtain ⟨db, hrun, habort⟩ := Option.bind_eq_some_iff.mp hrun'
  rw [hrun] at hnext
  have hnext : db.store.txnMgr.nextTxnId = 1 := Option.some.inj hnext
  refine ⟨db, db', hrun, habort, @abort_undoes _ _ _ 1 _
    [updateB "t" 1 7, updateB "t" 1 8, .insert "t" [.int 1, .int 9]] (emptyTables_started (by decide) ["t"])
    (reaches_of_run hrun) ?_⟩
  rw [hnext]
  exact habort

/-- An INSERT is not in the write set: its row stays when the transaction is aborted. -/
theorem not_abort_undoes : ¬∀ (db₀ db db' : Database) (n : ℤ) (stmts : List Statement), db₀.Started n →
    db₀.Reaches (fun _ _ => True) db →
    db.run (fun _ _ => True) (.begin :: stmts.map (.stmt db.store.txnMgr.nextTxnId) ++
      [.abort db.store.txnMgr.nextTxnId]) = some db' → SameData db db' := by
  intro hclaim
  obtain ⟨db', hrun, fh, hfh, hused⟩ : ∃ db', (emptyTables 1 ["t"]).run (fun _ _ => True)
        [.begin, .stmt 0 (.insert "t" [.int 1, .int 5]), .abort 0] = some db' ∧
      ∃ fh, db'.store.fhs "t" = some fh ∧ fh.isRecord ⟨1, 0⟩ = true := ⟨_, rfl, _, rfl, rfl⟩
  have hsame := (hclaim _ _ db' 1 [.insert "t" [.int 1, .int 5]] (emptyTables_started (by decide) ["t"])
    .refl hrun).files "t"
  rw [hfh] at hsame
  have hbefore : fh.contents.isRecord ⟨1, 0⟩ = (RmFileHandle.create 24).contents.isRecord ⟨1, 0⟩ :=
    congrArg (·.isRecord ⟨1, 0⟩) (Option.some.inj hsame)
  have hafter : fh.contents.isRecord ⟨1, 0⟩ = true := hused
  rw [hafter] at hbefore
  cases hbefore

end Rmdb
