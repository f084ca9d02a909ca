import Rmdb.Execution.Writes
import Rmdb.Transaction.Effects

/-! The effect of one step of a statement on the slots, the transaction table, the version links
and the history. Invariants of whole runs are proved from these five cases. -/
namespace Rmdb

/-- A transaction has appended an undo log, and perhaps an entry to its write set. -/
structure TransactionManager.Logged (tm tm' : TransactionManager) (txnId : ℤ) (log : UndoLog)
    (ws : List WriteRecord) : Prop where
  txnMap : tm'.txnMap = tm.txnMap.map fun cur =>
    if cur.txnId = txnId then
      { cur with undoLogs := cur.undoLogs ++ [log], writeSet := cur.writeSet ++ ws }
    else cur
  inert : tm.Inert tm'

namespace TransactionManager.Logged

variable {tm tm' : TransactionManager} {txnId : ℤ} {log : UndoLog} {ws : List WriteRecord}
  {new : Transaction}

/-- The transactions after the step: the others as they were, the writer with more to undo. -/
theorem mem (h : tm.Logged tm' txnId log ws) (hnew : new ∈ tm'.txnMap) :
    ∃ old ∈ tm.txnMap, (old.txnId ≠ txnId ∧ new = old) ∨
      (old.txnId = txnId ∧
        new = { old with undoLogs := old.undoLogs ++ [log], writeSet := old.writeSet ++ ws }) := by
  rw [h.txnMap] at hnew
  obtain ⟨old, hold, rfl⟩ := List.mem_map.mp hnew
  refine ⟨old, hold, ?_⟩
  split
  · rename_i hid
    exact .inr ⟨hid, rfl⟩
  · rename_i hid
    exact .inl ⟨hid, rfl⟩

/-- The same, field by field. -/
theorem mem_fields (h : tm.Logged tm' txnId log ws) (hnew : new ∈ tm'.txnMap) :
    ∃ old ∈ tm.txnMap, new.txnId = old.txnId ∧ new.startTs = old.startTs ∧ new.state = old.state ∧
      new.writeSet = old.writeSet ++ if old.txnId = txnId then ws else [] := by
  obtain ⟨old, hold, ⟨hid, rfl⟩ | ⟨hid, rfl⟩⟩ := h.mem hnew
  · exact ⟨new, hold, rfl, rfl, rfl, by simp [hid]⟩
  · exact ⟨old, hold, rfl, rfl, rfl, by simp [hid]⟩

end TransactionManager.Logged

/-- The transaction table has the caller's start timestamp and state. -/
theorem Store.Runs.fields {s : Store} {txn cur : Transaction} (hids : s.txnMgr.Ids)
    (h : s.Runs txn) (hcur : cur ∈ s.txnMgr.txnMap) (hid : cur.txnId = txn.txnId) :
    cur.startTs = txn.startTs ∧ cur.state = txn.state := by
  obtain ⟨known, hget, hstart, hstate⟩ := h
  obtain ⟨hknown, hknown_id⟩ := TransactionManager.mem_of_getTransaction hget
  rw [hids.id_inj cur hcur known hknown (hid.trans hknown_id.symm)]
  exact ⟨hstart, hstate⟩

theorem Store.Runs.mem {s : Store} {txn : Transaction} (h : s.Runs txn) :
    ∃ cur ∈ s.txnMgr.txnMap, cur.txnId = txn.txnId ∧ cur.startTs = txn.startTs ∧
      cur.state = txn.state := by
  obtain ⟨cur, hget, hstart, hstate⟩ := h
  obtain ⟨hmem, hid⟩ := TransactionManager.mem_of_getTransaction hget
  exact ⟨cur, hmem, hid, hstart, hstate⟩

theorem RmFileHandle.getRecordMvcc_page {fh : RmFileHandle} {tm : TransactionManager} {startTs : ℤ}
    {rid : Rid} {view : RecordView} (h : fh.getRecordMvcc tm startTs rid = .ok (some view)) :
    0 ≤ rid.slotNo ∧ fh.hasPage rid.pageNo := by
  unfold getRecordMvcc at h
  split at h
  · cases h
  · rename_i hpage
    split at h
    · cases h
    · rename_i hslot
      exact ⟨not_lt.mp hslot, not_not.mp hpage⟩

theorem RmFileHandle.insertRecord_slotNo {fh : RmFileHandle} (rec : Rid → RmRecord)
    (h : (fh.insertRecord rec).1 ≠ ⟨-1, -1⟩) : 0 ≤ (fh.insertRecord rec).1.slotNo := by
  simp only [insertRecord] at h ⊢
  generalize fh.createPageHandle = created at h ⊢
  obtain ⟨pageNo, fh₁⟩ := created
  cases hfree : fh₁.firstFreeSlot pageNo with
  | none => simp [hfree] at h
  | some slotNo => exact Int.natCast_nonneg slotNo

/-- What a step of a statement has done. -/
inductive StmtOutcome (tabs : String → Option TabMeta) (txn : Transaction) (tab : String)
    (target : Rid → Prop) (inserting : Prop) (s₀ s s' : Store) : Prop where
  /-- An INSERT found no slot. -/
  | notInserted {n : ℕ} {row : RowData} (runs : s.Runs txn)
    (logged : s.txnMgr.Logged s'.txnMgr txn.txnId (Store.insertLog n row) [])
    (slots : s.SameSlots s') (history : s'.history = s.history)
    (version : s'.txnMgr.versionInfo = Function.update s.txnMgr.versionInfo ⟨-1, -1⟩
      (some (s.txnMgr.nextUndoLink txn.txnId)))
  | inserted {fh : RmFileHandle} {rid : Rid} {n : ℕ} {data : Bytes} (inserting : inserting)
    (first : s = s₀) (runs : s.Runs txn)
    (file : s.fhs tab = some fh) (target : target rid) (slotNo : 0 ≤ rid.slotNo)
    (free : s.occupied tab rid = false)
    (logged : s.txnMgr.Logged s'.txnMgr txn.txnId
      (Store.insertLog n (Store.insertedRecord txn tab data rid).row) [])
    (put : s.Put s' tab rid (Store.insertedRecord txn tab data rid) true)
    (history : s'.history =
      ⟨txn.txnId, tab, rid, .insert, Store.insertedRecord txn tab data rid⟩ :: s.history)
    (version : s'.txnMgr.versionInfo = Function.update s.txnMgr.versionInfo rid
      (some (s.txnMgr.nextUndoLink txn.txnId)))
  /-- An index has refused the new row, and its slot was freed. -/
  | refused {fh : RmFileHandle} {rid : Rid} {n : ℕ} {data : Bytes} (inserting : inserting)
    (first : s = s₀) (runs : s.Runs txn)
    (file : s.fhs tab = some fh) (target : target rid) (slotNo : 0 ≤ rid.slotNo)
    (free : s.occupied tab rid = false)
    (logged : s.txnMgr.Logged s'.txnMgr txn.txnId
      (Store.insertLog n (Store.insertedRecord txn tab data rid).row) [])
    (put : s.Put s' tab rid (zeroRecord fh.recordSize) false)
    (history : s'.history = ⟨txn.txnId, tab, rid, .undo, zeroRecord fh.recordSize⟩ ::
      ⟨txn.txnId, tab, rid, .insert, Store.insertedRecord txn tab data rid⟩ :: s.history)
    (version : s'.txnMgr.versionInfo = Function.update s.txnMgr.versionInfo rid
      (some (s.txnMgr.nextUndoLink txn.txnId)))
  | logged {fh : RmFileHandle} {tabMeta : TabMeta} {rid : Rid} {old : RecordView}
    (may : MayOverwrite s txn tab fh rid old) (htab : tabs tab = some tabMeta) (target : target rid)
    (logged : s.txnMgr.Logged s'.txnMgr txn.txnId
      (updateLog tabMeta (fh.record rid) old (s.txnMgr.getUndoLink rid)) [])
    (slots : s.SameSlots s') (history : s'.history = s.history)
    (version : s'.txnMgr.versionInfo = s.txnMgr.versionInfo)
  | overwritten {fh : RmFileHandle} {tabMeta : TabMeta} {rid : Rid} {old : RecordView}
    {wtype : WType} {log : UndoLog} {rec_ : RmRecord} (may : MayOverwrite s txn tab fh rid old)
    (htab : tabs tab = some tabMeta) (target : target rid)
    (write : Overwrite tabMeta s txn tab (fh.record rid) rid old wtype log rec_)
    (logged : s.txnMgr.Logged s'.txnMgr txn.txnId log [⟨wtype, tab, rid, fh.record rid⟩])
    (put : s.Put s' tab rid rec_ (s.occupied tab rid))
    (history : s'.history =
      ⟨txn.txnId, tab, rid, if wtype = .deleteTuple then .delete else .update, rec_⟩ :: s.history)
    (version : s'.txnMgr.versionInfo = Function.update s.txnMgr.versionInfo rid
      (some (s.txnMgr.nextUndoLink txn.txnId)))

theorem TransactionManager.logged_append (tm : TransactionManager) (txnId : ℤ) (log : UndoLog)
    (versionInfo : Rid → Option UndoLink) :
    tm.Logged { tm.appendUndoLog txnId log with versionInfo } txnId log [] := by
  refine ⟨?_, .modifyTxn fun _ => ⟨rfl, rfl, rfl, rfl⟩⟩
  simp only [TransactionManager.appendUndoLog, TransactionManager.modifyTxn, List.append_nil]

private theorem logged_install (tm : TransactionManager) (txnId : ℤ) (log : UndoLog) (w : WriteRecord)
    (versionInfo : Rid → Option UndoLink) :
    tm.Logged ({ tm.appendUndoLog txnId log with versionInfo }.appendWriteRecord txnId w) txnId log
      [w] := by
  refine ⟨?_, (TransactionManager.logged_append tm txnId log versionInfo).inert.trans <|
    .modifyTxn (f := fun cur => { cur with writeSet := cur.writeSet ++ [w] })
      fun _ => ⟨rfl, rfl, rfl, rfl⟩⟩
  simp only [TransactionManager.appendUndoLog, TransactionManager.appendWriteRecord,
    TransactionManager.modifyTxn, List.map_map]
  congr 1
  funext cur
  by_cases hid : cur.txnId = txnId <;> simp [hid]

/-- What an INSERT that has passed its checks does. -/
inductive InsertOutcome (txn : Transaction) (tab : String) (rid : Rid) (s s' : Store) : Prop where
  | notInserted {n : ℕ} {row : RowData}
    (logged : s.txnMgr.Logged s'.txnMgr txn.txnId (Store.insertLog n row) [])
    (slots : s.SameSlots s') (history : s'.history = s.history)
    (version : s'.txnMgr.versionInfo = Function.update s.txnMgr.versionInfo ⟨-1, -1⟩
      (some (s.txnMgr.nextUndoLink txn.txnId)))
  | inserted {n : ℕ} {data : Bytes} (slotNo : 0 ≤ rid.slotNo) (free : s.occupied tab rid = false)
    (logged : s.txnMgr.Logged s'.txnMgr txn.txnId
      (Store.insertLog n (Store.insertedRecord txn tab data rid).row) [])
    (put : s.Put s' tab rid (Store.insertedRecord txn tab data rid) true)
    (history : s'.history =
      ⟨txn.txnId, tab, rid, .insert, Store.insertedRecord txn tab data rid⟩ :: s.history)
    (version : s'.txnMgr.versionInfo = Function.update s.txnMgr.versionInfo rid
      (some (s.txnMgr.nextUndoLink txn.txnId)))
  | refused {fh : RmFileHandle} {n : ℕ} {data : Bytes} (file : s.fhs tab = some fh)
    (slotNo : 0 ≤ rid.slotNo) (free : s.occupied tab rid = false)
    (logged : s.txnMgr.Logged s'.txnMgr txn.txnId
      (Store.insertLog n (Store.insertedRecord txn tab data rid).row) [])
    (put : s.Put s' tab rid (zeroRecord fh.recordSize) false)
    (history : s'.history = ⟨txn.txnId, tab, rid, .undo, zeroRecord fh.recordSize⟩ ::
      ⟨txn.txnId, tab, rid, .insert, Store.insertedRecord txn tab data rid⟩ :: s.history)
    (version : s'.txnMgr.versionInfo = Function.update s.txnMgr.versionInfo rid
      (some (s.txnMgr.nextUndoLink txn.txnId)))

theorem Store.insertTuple_outcome {s : Store} {txn : Transaction} {tab : String} {fh : RmFileHandle}
    (hfh : s.fhs tab = some fh) (data : Bytes) (n : ℕ) :
    InsertOutcome txn tab (fh.insertRecord (insertedRecord txn tab data)).1 s (s.insertTuple txn tab fh data n).2 := by
  rcases insertTuple_spec hfh txn data n with ⟨hrid, hslots, hhist⟩ | ⟨hrid, hfree, hput, hhist⟩
  · exact .notInserted (TransactionManager.logged_append _ _ _ _) hslots hhist (by rw [← hrid]; rfl)
  · exact .inserted (RmFileHandle.insertRecord_slotNo _ hrid) hfree (TransactionManager.logged_append _ _ _ _) hput
      hhist rfl

theorem Store.dropInserted_outcome {s : Store} {txn : Transaction} {tab : String} {fh : RmFileHandle}
    (hfh : s.fhs tab = some fh) (data : Bytes) (n : ℕ) :
    InsertOutcome txn tab (fh.insertRecord (insertedRecord txn tab data)).1 s
      ((s.insertTuple txn tab fh data n).2.dropInserted txn tab (fh.insertRecord (insertedRecord txn tab data)).2
        (fh.insertRecord (insertedRecord txn tab data)).1) := by
  have hnew : (s.insertTuple txn tab fh data n).2.fhs tab =
      some (fh.insertRecord (insertedRecord txn tab data)).2 := by
    simp only [insertTuple, Function.update_self]
  have hdrop := dropInserted_spec hnew txn (fh.insertRecord (insertedRecord txn tab data)).1
  rcases insertTuple_spec hfh txn data n with ⟨hrid, hslots, hhist⟩ | ⟨hrid, hfree, hput, hhist⟩
  · rcases hdrop with ⟨-, hslots', hhist'⟩ | ⟨hocc, -, -⟩
    · exact .notInserted (TransactionManager.logged_append _ _ _ _) (hslots.trans hslots') (hhist'.trans hhist)
        (by rw [← hrid]; rfl)
    · rw [occupied_eq hnew, RmFileHandle.isRecord_iff] at hocc
      have hpageNo := hocc.1.1
      rw [hrid] at hpageNo
      simp [rmFirstRecordPage] at hpageNo
  · rcases hdrop with ⟨hocc, -, -⟩ | ⟨-, hput', hhist'⟩
    · rw [hput.occupied, if_pos ⟨rfl, rfl⟩] at hocc
      cases hocc
    · have hsize := hput.recordSize tab
      simp only [hnew, hfh, Option.map_some, Option.some.injEq] at hsize
      rw [hsize] at hput' hhist'
      rw [hhist] at hhist'
      exact .refused hfh (RmFileHandle.insertRecord_slotNo _ hrid) hfree (TransactionManager.logged_append _ _ _ _)
        (hput.trans hput') hhist' rfl

/-- An outcome of an INSERT, as one of a step. -/
private theorem InsertOutcome.stmtOutcome {tabs : String → Option TabMeta} {txn : Transaction} {tab : String}
    {target : Rid → Prop} {inserting : Prop} {s₀ s s' : Store} {fh : RmFileHandle} {rid : Rid}
    (h : InsertOutcome txn tab rid s s') (hinserting : inserting) (hfirst : s = s₀) (hruns : s.Runs txn)
    (hfh : s.fhs tab = some fh) (htarget : target rid) : StmtOutcome tabs txn tab target inserting s₀ s s' := by
  cases h with
  | notInserted logged slots history version => exact .notInserted hruns logged slots history version
  | inserted slotNo free logged put history version =>
    exact .inserted hinserting hfirst hruns hfh htarget slotNo free logged put history version
  | refused file slotNo free logged put history version =>
    exact .refused hinserting hfirst hruns file htarget slotNo free logged put history version

theorem StmtStep.outcome {tabs : String → Option TabMeta} {txn : Transaction} {tab : String}
    {target : Rid → Prop} {inserting : Prop} {s₀ s s' : Store} (h : StmtStep tabs txn tab target inserting s₀ s s') :
    StmtOutcome tabs txn tab target inserting s₀ s s' := by
  cases h with
  | insert data hinserting hfirst hruns hfh htab htarget =>
    exact (Store.insertTuple_outcome hfh data _).stmtOutcome hinserting hfirst hruns hfh htarget
  | failedInsert data hinserting hfirst hruns hfh htab htarget =>
    exact (Store.dropInserted_outcome hfh data _).stmtOutcome hinserting hfirst hruns hfh htarget
  | log h htab htarget =>
    exact .logged h htab htarget (TransactionManager.logged_append _ _ _ _) (.of_fhs rfl) rfl rfl
  | overwrite h htab htarget hwrite =>
    rename_i wtype log rec_
    have hpage := (RmFileHandle.getRecordMvcc_page h.visible).2
    have hput := Store.installVersion_put (s := s.appendUndoLog txn log)
      h.file hpage txn wtype (s.txnMgr.nextUndoLink txn.txnId) rec_
    exact .overwritten h htab htarget hwrite (logged_install _ _ _ _ _)
      ⟨hput.slot, hput.occupied, hput.hasPage, hput.page, hput.recordSize⟩ rfl rfl

/-- Every step appends one undo log of the transaction, and nothing but its write set else. -/
theorem StmtStep.logged {tabs : String → Option TabMeta} {txn : Transaction} {tab : String}
    {target : Rid → Prop} {inserting : Prop} {s₀ s s' : Store}
    (h : StmtStep tabs txn tab target inserting s₀ s s') :
    ∃ log ws, s.txnMgr.Logged s'.txnMgr txn.txnId log ws := by
  cases h.outcome with
  | notInserted runs logged => exact ⟨_, _, logged⟩
  | inserted inserting first runs file target slotNo free logged => exact ⟨_, _, logged⟩
  | refused inserting first runs file target slotNo free logged => exact ⟨_, _, logged⟩
  | logged may htab target logged => exact ⟨_, _, logged⟩
  | overwritten may htab target write logged => exact ⟨_, _, logged⟩

theorem StmtStep.inert {tabs : String → Option TabMeta} {txn : Transaction} {tab : String}
    {target : Rid → Prop} {inserting : Prop} {s₀ s s' : Store}
    (h : StmtStep tabs txn tab target inserting s₀ s s') : s.txnMgr.Inert s'.txnMgr := by
  obtain ⟨_, _, hlogged⟩ := h.logged
  exact hlogged.inert

theorem StmtSteps.inert {tabs : String → Option TabMeta} {txn : Transaction} {tab : String}
    {target : Rid → Prop} {inserting : Prop} {s₀ s s' : Store} (h : StmtSteps tabs txn tab target inserting s₀ s s') :
    s.txnMgr.Inert s'.txnMgr := by
  induction h with
  | refl => exact .refl _
  | tail _ hstep ih => exact ih.trans hstep.inert

/-- Slots that a statement does not target keep their contents. -/
theorem StmtStep.slot {tabs : String → Option TabMeta} {txn : Transaction} {tab t : String}
    {target : Rid → Prop} {inserting : Prop} {s₀ s s' : Store} {rid : Rid}
    (h : StmtStep tabs txn tab target inserting s₀ s s') (hrid : ¬(t = tab ∧ target rid)) :
    s'.slot t rid = s.slot t rid := by
  have put : ∀ {r rec_ used}, s.Put s' tab r rec_ used → target r → s'.slot t rid = s.slot t rid := by
    intro r rec_ used hput htarget
    refine hput.slot_ne fun heq => hrid ?_
    obtain ⟨rfl, rfl⟩ := heq
    exact ⟨rfl, htarget⟩
  cases h.outcome with
  | notInserted runs logged slots => exact slots.slot t rid
  | inserted inserting first runs file target slotNo free logged hput => exact put hput target
  | refused inserting first runs file target slotNo free logged hput => exact put hput target
  | logged may htab target logged slots => exact slots.slot t rid
  | overwritten may htab target write logged hput => exact put hput target

theorem StmtSteps.slot {tabs : String → Option TabMeta} {txn : Transaction} {tab t : String}
    {target : Rid → Prop} {inserting : Prop} {s₀ s s' : Store} {rid : Rid}
    (h : StmtSteps tabs txn tab target inserting s₀ s s') (hrid : ¬(t = tab ∧ target rid)) :
    s'.slot t rid = s.slot t rid := by
  induction h with
  | refl => rfl
  | tail _ hstep ih => exact (hstep.slot hrid).trans ih

end Rmdb
