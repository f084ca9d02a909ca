import Rmdb.System.Rollback
import Rmdb.System.SerialHistory

/-! UPDATE in a serial history: which rows it changes, and when it does not abort its
transaction. -/
namespace Rmdb

open Program Database TransactionManager

/-! ### Errors of an UPDATE -/

/-- Anything but the exception that aborts the transaction. -/
def KeepsTxn (e : DbError) : Prop := e ≠ .transactionAbort

private theorem initRaw_keepsTxn (val : Value) (col : ColMeta) (e : DbError)
    (h : val.initRaw col = .error e) : KeepsTxn e := by
  unfold Value.initRaw at h
  dsimp only at h
  split at h
  · cases h
    exact nofun
  · split at h
    · split at h
      · cases h
      · cases h
        exact nofun
    · split at h
      · cases h
      · cases h
        exact nofun
    · split at h
      · cases h
        exact nofun
      · cases h

private theorem bind_error {α β : Type} {x : Except DbError α} {f : α → Except DbError β}
    {P : DbError → Prop} (hx : ∀ e, x = .error e → P e) (hf : ∀ a e, f a = .error e → P e) (e : DbError)
    (h : x >>= f = .error e) : P e := by
  cases x with
  | error e' =>
    cases h
    exact hx e rfl
  | ok a => exact hf a e h

theorem applySetClauses_keepsTxn (tabMeta : TabMeta) (setClauses : List SetClause) (old data : Bytes) :
    ∀ e, applySetClauses tabMeta setClauses old data = .error e → KeepsTxn e := by
  induction setClauses generalizing data with
  | nil => exact nofun
  | cons set setClauses ih =>
    rw [applySetClauses, List.foldlM_cons]
    refine bind_error ?_ fun data' => ih data'
    cases tabMeta.cols.find? (·.name = set.lhs) with
    | none =>
      rintro e ⟨⟩
      exact nofun
    | some col =>
      refine bind_error ?_ fun val => bind_error (initRaw_keepsTxn val col) fun raw => nofun
      cases set.rhs old with
      | error kind =>
        rintro e ⟨⟩
        exact nofun
      | ok val => exact nofun

private theorem ofIx_keepsTxn {α : Type} (x : Except IxError α) : Throws KeepsTxn (DbM.ofIx x) := by
  refine .ofExcept fun e he => ?_
  cases x with
  | error ix =>
    cases he
    cases ix <;> exact nofun
  | ok a => cases he

private theorem indexHandle_keepsTxn (name : String) : Throws KeepsTxn (DbM.indexHandle name) := by
  refine .bind .get fun db => ?_
  cases db.ihs name with
  | none => exact .throw nofun
  | some ih => exact .pure ih

private theorem checkUniqueKeys_keepsTxn (tab : String) (indexes : List IndexMeta) (old new : Bytes) :
    Throws KeepsTxn (checkUniqueKeys tab indexes old new) := by
  refine .forM fun index _ => ?_
  split
  · refine .bind (indexHandle_keepsTxn _) fun ih => ?_
    split
    · refine .bind (ofIx_keepsTxn _) fun found => ?_
      split
      · exact .throw nofun
      · exact .pure _
    · exact .pure _
  · exact .pure _

private theorem moveIndexEntries_keepsTxn (tab : String) (indexes : List IndexMeta) (rid : Rid)
    (old new : Bytes) : Throws KeepsTxn (moveIndexEntries tab indexes rid old new) := by
  refine .forM fun index _ => .bind (indexHandle_keepsTxn _) fun ih => ?_
  split
  · refine .bind (ofIx_keepsTxn _) fun deleted => .bind (.modify _) fun _ => ?_
    exact .bind (ofIx_keepsTxn _) fun inserted => .modify _
  · exact .pure _

private theorem prepareUpdate_keepsTxn (tab : String) (tabMeta : TabMeta) (setClauses : List SetClause)
    (rid : Rid) (old data : Bytes) :
    Throws KeepsTxn (prepareUpdate tab tabMeta setClauses rid old data) := by
  refine .bind (.ofExcept (applySetClauses_keepsTxn tabMeta setClauses old data)) fun new => ?_
  refine .bind (checkUniqueKeys_keepsTxn _ _ _ _) fun _ => ?_
  exact .bind (moveIndexEntries_keepsTxn _ _ _ _ _) fun _ => .pure _

/-! ### What the active transaction finds -/

namespace Store

variable {s : Store} {txn : Transaction} {tab : String} {rid : Rid} {rec_ : RmRecord}

/-- A record is dead when it is deleted, or left by a transaction that was aborted. -/
def DeadRecord (s : Store) (rec_ : RmRecord) : Prop :=
  rec_.tupleMeta.isDeleted = true ∨
    rec_.tupleMeta.ts ≠ 0 ∧ s.txnMgr.isTransactionAborted rec_.tupleMeta.ts = true

instance (s : Store) (rec_ : RmRecord) : Decidable (s.DeadRecord rec_) :=
  inferInstanceAs (Decidable (_ ∨ _))

/-- The stamp of a slot, seen by the only active transaction. -/
theorem Serialized.stamp_cases (h : s.Serialized) (hruns : s.Runs txn) (hactive : txn.isActive = true)
    {ts : ℤ} (hts : s.txnMgr.Issued ts) (halive : ts = 0 ∨ s.txnMgr.isTransactionAborted ts = false) :
    ts = 0 ∨ ts = txn.startTs ∨ ∃ other ∈ s.txnMgr.txnMap, other.state = .committed ∧
      other.commitTs < txn.startTs ∧ (other.startTs = ts ∨ other.commitTs = ts) := by
  by_cases hzero : ts = 0
  · exact .inl hzero
  rcases hts with hts | ⟨other, hother, hts⟩
  · exact .inl hts
  obtain ⟨cur, hcur, hid, hstart, hstate⟩ := hruns.mem
  by_cases hown : other.txnId = cur.txnId
  · obtain rfl := h.inv.id_inj other hother cur hcur hown
    rcases hts with hts | ⟨hcommitted, -⟩
    · exact .inr (.inl (hts.symm.trans hstart))
    · have hact : other.isActive = true := isActive_congr hstate ▸ hactive
      simp [Transaction.isActive, hcommitted] at hact
  · obtain ⟨hfin, -, hbefore⟩ := h.alone cur hcur (isActive_congr hstate ▸ hactive) other hother hown
    have hcommitted : other.state = .committed := by
      rcases hts with hts | ⟨hstate', -⟩
      · cases hst : other.state with
        | committed => rfl
        | aborted =>
          have hmem := (h.inv.abortedTxns ts).mpr ⟨other, hother, hst, hts⟩
          simp [isTransactionAborted, hmem, hzero] at halive
        | default => simp [Transaction.isActive, hst] at hfin
        | growing => simp [Transaction.isActive, hst] at hfin
        | shrinking => simp [Transaction.isActive, hst] at hfin
      · exact hstate'
    refine .inr (.inr ⟨other, hother, hcommitted, hstart ▸ hbefore hcommitted, ?_⟩)
    rcases hts with hts | ⟨-, hts⟩
    · exact .inl hts
    · exact .inr hts

theorem Serialized.read (h : s.Serialized) (hruns : s.Runs txn) (hactive : txn.isActive = true)
    (hslot : s.slot tab rid = some rec_) (hpage : s.hasPage tab rid.pageNo) (hrid : 0 ≤ rid.slotNo)
    (halive : rec_.tupleMeta.ts = 0 ∨ s.txnMgr.isTransactionAborted rec_.tupleMeta.ts = false) :
    s.getRecordMvcc tab txn.startTs rid =
      .ok (if rec_.tupleMeta.isDeleted then none else some ⟨none, rec_.row⟩) := by
  refine read_current hslot hpage hrid (h.hasTupleMeta hslot) ?_
  rcases h.stamp_cases hruns hactive (h.slots tab rid rec_ hslot) halive with hzero | hown | hbefore
  · exact .inl hzero
  · exact .inr (.inl hown)
  · obtain ⟨other, hother, hstate, hlt, hts⟩ := hbefore
    have hcommitted := h.inv.committedBefore hother hstate hlt
    rcases hts with hts | hts
    · exact .inr (.inr (hts ▸ hcommitted.1))
    · exact .inr (.inr (hts ▸ hcommitted.2))

/-- What the transaction reads in a slot that a scan visits. -/
theorem Serialized.read_scan {fh : RmFileHandle} (h : s.Serialized) (hruns : s.Runs txn) (hactive : txn.isActive = true)
    (hfh : s.fhs tab = some fh) (hrid : rid ∈ fh.scanRids)
    (halive : (fh.record rid).tupleMeta.ts = 0 ∨ s.txnMgr.isTransactionAborted (fh.record rid).tupleMeta.ts = false) :
    fh.getRecordMvcc s.txnMgr txn.startTs rid =
      .ok (if (fh.record rid).tupleMeta.isDeleted then none else some ⟨none, (fh.record rid).row⟩) := by
  have hpage := (RmFileHandle.isRecord_iff.mp (RmFileHandle.mem_scanRids hrid)).1
  have hread := h.read hruns hactive (slot_eq hfh) ((hasPage_iff hfh).mpr hpage)
    (RmFileHandle.slotNo_of_mem_scanRids hrid) halive
  rw [Store.getRecordMvcc, hfh] at hread
  exact hread

theorem Serialized.noConflict {fh : RmFileHandle} (h : s.Serialized) (hruns : s.Runs txn)
    (hactive : txn.isActive = true) (hfh : s.fhs tab = some fh)
    (halive : (fh.record rid).tupleMeta.ts = 0 ∨
      s.txnMgr.isTransactionAborted (fh.record rid).tupleMeta.ts = false) :
    fh.checkWriteWriteConflict s.txnMgr txn rid = false := by
  have hslot : s.slot tab rid = some (fh.record rid) := slot_eq hfh
  have hmeta := h.hasTupleMeta hslot
  have hnot : txn.state ≠ .aborted := by
    intro hst
    simp [Transaction.isActive, hst] at hactive
  unfold RmFileHandle.checkWriteWriteConflict
  split
  · simp only [effectiveMeta, hmeta, if_true]
    rcases h.stamp_cases hruns hactive (h.slots tab rid _ hslot) halive with hzero | hown | hbefore
    · simp [hzero]
    · simp [hown]
    · obtain ⟨other, hother, hstate, hlt, hts⟩ := hbefore
      by_cases hzero : (fh.record rid).tupleMeta.ts = 0
      · simp [hzero]
      have hfin : other.isActive = false := by simp [Transaction.isActive, hstate]
      have hcommit := h.inv.committed other hother hstate
      rcases hts with hts | hts
      · -- The stamp is the start timestamp of a committed transaction.
        have habort := h.inv.not_aborted_of_active hother (by simp [hstate])
        have hcom : s.txnMgr.isCommitted other.startTs = true := by
          simp [isCommitted, isTransactionAborted, habort, h.inv.getTransactionByTimestamp hother, hstate]
        simp only [← hts, h.inv.getTransactionByTimestamp hother, hcom, Option.filter]
        have hlt' : ¬txn.startTs < other.commitTs := by omega
        by_cases hid : other.txnId = txn.txnId <;> simp [hid, hfin, hstate, hlt']
      · -- It is a commit timestamp, which nobody started at.
        have hnone : s.txnMgr.getTransactionByTimestamp other.commitTs = none :=
          getTransactionByTimestamp_eq_none.mpr fun b hb heq =>
            h.inv.commit_ne_start other hother b hb hstate heq.symm
        have hlt' : ¬txn.startTs < other.commitTs := by omega
        simp only [← hts, hnone, Option.filter_none]
        simp [hlt']
  · rfl

end Store

/-! ### One row -/

/-- What became of a row that an UPDATE has gone through. -/
structure RowUpdated (tabMeta : TabMeta) (txn : Transaction) (tab : String)
    (setClauses : List SetClause) (rid : Rid) (rec_ : RmRecord) (s' : Store) : Prop where
  updated : ∃ new, applySetClauses tabMeta setClauses rec_.row.bytes rec_.row.bytes = .ok new ∧
    s'.slot tab rid = some (updatedRecord txn tab rid new)

section
variable {txn : Transaction} {tab : String} {tabMeta : TabMeta} {setClauses : List SetClause} {rid : Rid}
  {rec_ : RmRecord}

private theorem updateRow_run (tabMeta : TabMeta) (setClauses : List SetClause) {db : Database} (h : db.store.Serialized)
    (hruns : db.store.Runs txn)
    (hactive : txn.isActive = true) (hslot : db.store.slot tab rid = some rec_)
    (hpage : db.store.hasPage tab rid.pageNo) (hrid : 0 ≤ rid.slotNo)
    (halive : ¬db.store.DeadRecord rec_) :
    let (r, db') := runFrom (updateRow txn tab tabMeta setClauses rid) db
    (∀ e, r = .error e → KeepsTxn e) ∧
      (∀ t r', ¬(t = tab ∧ r' = rid) → db'.store.slot t r' = db.store.slot t r') ∧
      (∀ t p, db.store.hasPage t p → db'.store.hasPage t p) ∧
      (r = .ok () → RowUpdated tabMeta txn tab setClauses rid rec_ db'.store) := by
  obtain ⟨fh, hfh, rfl⟩ := Option.map_eq_some_iff.mp hslot
  have hdel : (fh.record rid).tupleMeta.isDeleted = false := by
    by_contra hdel
    exact halive (.inl (by simpa using hdel))
  have hstamp : (fh.record rid).tupleMeta.ts = 0 ∨
      db.store.txnMgr.isTransactionAborted (fh.record rid).tupleMeta.ts = false := by
    by_contra hnot
    rw [not_or] at hnot
    exact halive (.inr ⟨hnot.1, by simpa using hnot.2⟩)
  have hread := h.read hruns hactive hslot hpage hrid hstamp
  rw [hdel, Store.getRecordMvcc, hfh] at hread
  have hread : fh.getRecordMvcc db.store.txnMgr txn.startTs rid = .ok (some ⟨none, (fh.record rid).row⟩) :=
    hread
  have hconflict := h.noConflict hruns hactive hfh hstamp
  simp only [updateRow, runFrom_bind, runFrom_getStore, runFrom_fileHandle, hfh, hconflict,
    Bool.false_eq_true, if_false, runFrom_ofExcept, hread, runFrom_modifyStore, RecordView.data]
  generalize updateLog tabMeta (fh.record rid) ⟨none, (fh.record rid).row⟩
    (db.store.txnMgr.getUndoLink rid) = log
  have hprepare := prepareUpdate_same tab tabMeta setClauses rid (fh.record rid).row.bytes
    (fh.record rid).row.bytes { db with store := db.store.appendUndoLog txn log }
  have hkeeps := prepareUpdate_keepsTxn tab tabMeta setClauses rid (fh.record rid).row.bytes
    (fh.record rid).row.bytes { db with store := db.store.appendUndoLog txn log }
  cases hrun : runFrom (prepareUpdate tab tabMeta setClauses rid (fh.record rid).row.bytes
    (fh.record rid).row.bytes) { db with store := db.store.appendUndoLog txn log } with
  | mk r db' =>
    rw [hrun] at hprepare hkeeps
    obtain ⟨hstore, -⟩ := hprepare
    cases r with
    | error e =>
      have hslots : db.store.SameSlots db'.store := .of_fhs (by rw [hstore]; rfl)
      refine ⟨?_, fun t r' _ => hslots.slot t r', hslots.hasPage, by simp⟩
      rintro e' ⟨⟩
      exact hkeeps e rfl
    | ok new =>
      have hput := Store.installVersion_put (s := db'.store) (by rw [hstore]; exact hfh)
        ((Store.hasPage_iff hfh).mp hpage) txn .updateTuple (db.store.txnMgr.nextUndoLink txn.txnId)
        (updatedRecord txn tab rid new)
      have hslots : db.store.SameSlots db'.store := .of_fhs (by rw [hstore]; rfl)
      refine ⟨by simp, fun t r' hne => ?_, fun t p hp => hput.hasPage t p (hslots.hasPage t p hp),
        fun _ => ⟨new, prepareUpdate_ok hrun, hput.slot_self⟩⟩
      exact (hput.slot_ne hne).trans (hslots.slot t r')

/-- The rounds of an UPDATE over rows that are alive. -/
private theorem updateRows_run (tabMeta : TabMeta) (setClauses : List SetClause) {db : Database}
    (rids : List Rid) (hnodup : rids.Nodup)
    (h : db.store.Serialized) (hruns : db.store.Runs txn) (hactive : txn.isActive = true)
    (htab : db.tabs tab = some tabMeta)
    (hrids : ∀ rid ∈ rids, 0 ≤ rid.slotNo ∧ db.store.hasPage tab rid.pageNo ∧
      ∃ rec_, db.store.slot tab rid = some rec_ ∧ ¬db.store.DeadRecord rec_) :
    let (r, db') := runFrom (rids.forM (updateRow txn tab tabMeta setClauses)) db
    (∀ e, r = .error e → KeepsTxn e) ∧
      (∀ t r', ¬(t = tab ∧ r' ∈ rids) → db'.store.slot t r' = db.store.slot t r') ∧
      (r = .ok () → ∀ rid ∈ rids, ∃ rec_, db.store.slot tab rid = some rec_ ∧
        RowUpdated tabMeta txn tab setClauses rid rec_ db'.store) := by
  induction rids generalizing db with
  | nil => exact ⟨by simp, fun _ _ _ => rfl, fun _ _ hrid => absurd hrid List.not_mem_nil⟩
  | cons rid rids ih =>
    obtain ⟨hnot, hnodup⟩ := List.nodup_cons.mp hnodup
    obtain ⟨hslotNo, hpage, rec_, hslot, halive⟩ := hrids rid List.mem_cons_self
    have hrow := updateRow_run tabMeta setClauses h hruns hactive hslot hpage
      hslotNo halive
    have hsteps : Steps txn tab (fun _ => True) False db.store db
        (runFrom (updateRow txn tab tabMeta setClauses rid) db).2 := updateRow_steps trivial db htab
    rw [runFrom_forM_cons]
    generalize runFrom (updateRow txn tab tabMeta setClauses rid) db = out at hrow hsteps ⊢
    obtain ⟨_ | _, mid⟩ := out
    · obtain ⟨hkeeps, hothers, -, -⟩ := hrow
      exact ⟨hkeeps, fun t r' hne => hothers t r' fun heq => hne ⟨heq.1, heq.2 ▸ List.mem_cons_self⟩, by simp⟩
    · obtain ⟨-, hothers, hpages, hupdated⟩ := hrow
      have hmoved := hsteps.2 hruns
      -- The other rows are what they were, and so is the list of aborted transactions.
      have hsame : ∀ r' ∈ rids, mid.store.slot tab r' = db.store.slot tab r' := fun r' hr' =>
        hothers tab r' fun heq => hnot (heq.2 ▸ hr')
      have hrest := ih hnodup (h.stmtSteps hmoved) (hmoved.runs hruns) (hsteps.1 ▸ htab) fun r' hr' => by
        obtain ⟨hslotNo', hpage', rec', hslot', halive'⟩ := hrids r' (List.mem_cons_of_mem rid hr')
        refine ⟨hslotNo', hpages tab r'.pageNo hpage', rec', (hsame r' hr').trans hslot', ?_⟩
        unfold Store.DeadRecord isTransactionAborted
        rw [hmoved.inert.abortedTxns]
        exact halive'
      obtain ⟨hkeeps, hothers', hupdated'⟩ := hrest
      refine ⟨hkeeps, fun t r' hne => ?_, fun hok r' hr' => ?_⟩
      · refine (hothers' t r' fun heq => hne ⟨heq.1, List.mem_cons_of_mem rid heq.2⟩).trans ?_
        exact hothers t r' fun heq => hne ⟨heq.1, heq.2 ▸ List.mem_cons_self⟩
      · rcases List.mem_cons.mp hr' with rfl | hr'
        · obtain ⟨new, hnew, hslot'⟩ := (hupdated rfl).updated
          exact ⟨rec_, hslot, new, hnew, (hothers' tab r' fun heq => hnot heq.2).trans hslot'⟩
        · obtain ⟨rec', hslot', hnew⟩ := hupdated' hok r' hr'
          exact ⟨rec', (hsame r' hr').symm.trans hslot', hnew⟩

end

/-! ### The statement -/

/-- The rows that a transaction sees and that meet the condition. -/
def RmFileHandle.visibleRids (fh : RmFileHandle) (tm : TransactionManager) (startTs : ℤ)
    (conds : Bytes → Bool) : List Rid :=
  fh.scanRids.filter fun rid =>
    match fh.getRecordMvcc tm startTs rid with
    | .ok (some view) => conds view.data
    | _ => false

def Database.visibleRids (db : Database) (txn : Transaction) (tab : String) (conds : Bytes → Bool) :
    List Rid :=
  match db.store.fhs tab with
  | none => []
  | some fh => fh.visibleRids db.store.txnMgr txn.startTs conds

/-- An UPDATE does not abort, and it changes the rows that it should and no others. -/
structure UpdatesVisible (db : Database) (txn : Transaction) (tab : String)
    (setClauses : List SetClause) (conds : Bytes → Bool) : Prop where
  keepsTxn : ∀ e, (runFrom (execUpdate txn tab setClauses conds) db).1 = .error e → KeepsTxn e
  others : ∀ t rid, ¬(t = tab ∧ rid ∈ db.visibleRids txn tab conds) →
    (runFrom (execUpdate txn tab setClauses conds) db).2.store.slot t rid = db.store.slot t rid
  rows : (runFrom (execUpdate txn tab setClauses conds) db).1 = .ok () →
    ∃ tabMeta, db.tabs tab = some tabMeta ∧
      ∀ rid ∈ db.visibleRids txn tab conds, ∃ rec_, db.store.slot tab rid = some rec_ ∧
        RowUpdated tabMeta txn tab setClauses rid rec_
          (runFrom (execUpdate txn tab setClauses conds) db).2.store

/-- No dead record meets the condition of an UPDATE, neither as it stands in its slot nor as a
version that is served for it. -/
def AvoidsDead (db : Database) : Action → Prop
  | .stmt txnId (.update tab _ conds) => ∀ txn ∈ db.activeTxn txnId, ∀ fh ∈ db.store.fhs tab,
    ∀ rid ∈ fh.scanRids, db.store.DeadRecord (fh.record rid) →
      conds (fh.record rid).row.bytes = false ∧ rid ∉ db.visibleRids txn tab conds
  | _ => True

instance (db : Database) (action : Action) : Decidable (AvoidsDead db action) := by
  unfold AvoidsDead
  split <;> infer_instance

variable {db db₀ : Database} {txnId : ℤ} {txn : Transaction} {tab : String}
  {setClauses : List SetClause} {conds : Bytes → Bool}

private theorem updateRids_eq {fh : RmFileHandle} (h : db.store.Serialized)
    (htxn : db.activeTxn txnId = some txn) (hruns : db.store.Runs txn) (hfh : db.store.fhs tab = some fh)
    (havoid : AvoidsDead db (.stmt txnId (.update tab setClauses conds))) :
    updateRids fh conds = fh.visibleRids db.store.txnMgr txn.startTs conds := by
  have hvisible : db.visibleRids txn tab conds = fh.visibleRids db.store.txnMgr txn.startTs conds := by
    simp only [Database.visibleRids, hfh]
  refine List.filter_congr fun rid hrid => ?_
  by_cases hdead : db.store.DeadRecord (fh.record rid)
  · obtain ⟨hraw, hserved⟩ := havoid txn htxn fh hfh rid hrid hdead
    rw [hvisible, RmFileHandle.visibleRids, List.mem_filter, not_and] at hserved
    rw [hraw]
    exact (Bool.eq_false_iff.mpr (hserved hrid)).symm
  · have hdel : (fh.record rid).tupleMeta.isDeleted = false := by
      by_contra hdel
      exact hdead (.inl (by simpa using hdel))
    have hstamp : (fh.record rid).tupleMeta.ts = 0 ∨
        db.store.txnMgr.isTransactionAborted (fh.record rid).tupleMeta.ts = false := by
      by_contra hnot
      rw [not_or] at hnot
      exact hdead (.inr ⟨hnot.1, by simpa using hnot.2⟩)
    have hread := h.read_scan hruns (activeTxn_mem htxn).2.2 hfh hrid hstamp
    rw [hdel] at hread
    rw [hread]
    rfl

theorem runs_of_activeTxn (htxn : db.activeTxn txnId = some txn) : db.store.Runs txn := by
  obtain ⟨hget, -⟩ := activeTxn_iff.mp htxn
  rw [← (mem_of_getTransaction hget).2] at hget
  exact ⟨txn, hget, rfl, rfl⟩

theorem Store.Serialized.updatesVisible (h : db.store.Serialized)
    (htxn : db.activeTxn txnId = some txn)
    (havoid : AvoidsDead db (.stmt txnId (.update tab setClauses conds))) :
    UpdatesVisible db txn tab setClauses conds := by
  have hruns := runs_of_activeTxn htxn
  suffices hrun : ∀ out, runFrom (execUpdate txn tab setClauses conds) db = out →
      (∀ e, out.1 = .error e → KeepsTxn e) ∧
        (∀ t rid, ¬(t = tab ∧ rid ∈ db.visibleRids txn tab conds) →
          out.2.store.slot t rid = db.store.slot t rid) ∧
        (out.1 = .ok () → ∃ tabMeta, db.tabs tab = some tabMeta ∧
          ∀ rid ∈ db.visibleRids txn tab conds, ∃ rec_, db.store.slot tab rid = some rec_ ∧
            RowUpdated tabMeta txn tab setClauses rid rec_ out.2.store) from
    ⟨(hrun _ rfl).1, (hrun _ rfl).2.1, (hrun _ rfl).2.2⟩
  rintro _ rfl
  have stopped : ∀ e, KeepsTxn e → ∀ e', (Except.error e : Except DbError Unit) = .error e' → KeepsTxn e' := by
    rintro e he e' ⟨⟩
    exact he
  simp only [execUpdate, runFrom_bind, runFrom_getTable]
  cases htab : db.tabs tab with
  | none => exact ⟨stopped _ (by simp [KeepsTxn]), fun _ _ _ => rfl, by simp⟩
  | some tabMeta =>
    simp only [runFrom_fileHandle]
    cases hfh : db.store.fhs tab with
    | none => exact ⟨stopped _ (by simp [KeepsTxn]), fun _ _ _ => rfl, by simp⟩
    | some fh =>
      have hrids := updateRids_eq h htxn hruns hfh havoid
      have hvisible : db.visibleRids txn tab conds = updateRids fh conds := by
        simp only [Database.visibleRids, hfh, hrids]
      have hloop := updateRows_run tabMeta setClauses (updateRids fh conds) ((fh.scanRids_nodup).filter _) h hruns
        (activeTxn_mem htxn).2.2 htab fun rid hrid => by
          obtain ⟨hscan, hconds⟩ := List.mem_filter.mp hrid
          have hpage := (RmFileHandle.isRecord_iff.mp (RmFileHandle.mem_scanRids hscan)).1
          refine ⟨RmFileHandle.slotNo_of_mem_scanRids hscan, (Store.hasPage_iff hfh).mpr hpage,
            fh.record rid, Store.slot_eq hfh, fun hdead => ?_⟩
          have hmissed := (havoid txn htxn fh hfh rid hscan hdead).1
          rw [hmissed] at hconds
          cases hconds
      rw [hvisible]
      obtain ⟨hkeeps, hothers, hrows⟩ := hloop
      exact ⟨hkeeps, hothers, fun hok => ⟨tabMeta, rfl, hrows hok⟩⟩

/-- In a serial history that starts from fresh files, every UPDATE that avoids dead records does what it
should. -/
theorem serial_update {n : ℤ} (hstart : db₀.Started n)
    (hfresh : ∀ tab rid rec_, db₀.store.slot tab rid = some rec_ → rec_.tupleMeta.ts = 0)
    (hreach : db₀.Reaches (fun db action => Serial db action ∧ AvoidsDead db action) db)
    (htxn : db.activeTxn txnId = some txn)
    (havoid : AvoidsDead db (.stmt txnId (.update tab setClauses conds))) :
    UpdatesVisible db txn tab setClauses conds :=
  (serialized_reaches (fun _ _ h => h.1) (hstart.serialized hfresh) hreach).updatesVisible htxn havoid

/-- `DELETE .. WHERE a = key` by a sequential scan. -/
def deleteSeq (tab : String) (key : BitVec 32) : Statement :=
  .delete tab (fun data => readWord (data.take 4) = key) .seq

/-- A row is deleted, another one is updated. -/
theorem serial_update_one :
    ∃ db txn, (emptyTables 0 ["t"]).run (fun db action => Serial db action ∧ AvoidsDead db action)
        [.begin, .stmt 0 (.insert "t" [.int 1, .int 5]), .stmt 0 (.insert "t" [.int 2, .int 6]),
          .commit 0, .begin, .stmt 1 (deleteSeq "t" 1), .commit 1, .begin] = some db ∧
      db.activeTxn 2 = some txn ∧
      UpdatesVisible db txn "t" [⟨"b", fun _ => .ok (.int 7)⟩] fun data => readWord (data.take 4) = 2 := by
  obtain ⟨db, hrun, txn, htxn, havoid⟩ : ∃ db, (emptyTables 0 ["t"]).run
        (fun db action => Serial db action ∧ AvoidsDead db action)
        [.begin, .stmt 0 (.insert "t" [.int 1, .int 5]), .stmt 0 (.insert "t" [.int 2, .int 6]),
          .commit 0, .begin, .stmt 1 (deleteSeq "t" 1), .commit 1, .begin] = some db ∧
      ∃ txn, db.activeTxn 2 = some txn ∧
        AvoidsDead db (.stmt 2 (.update "t" [⟨"b", fun _ => .ok (.int 7)⟩]
          fun data => readWord (data.take 4) = 2)) :=
    ⟨_, rfl, _, rfl, by decide +kernel⟩
  exact ⟨db, txn, hrun, htxn, serial_update (emptyTables_started (n := 0) le_rfl ["t"])
    (emptyTables_fresh 0 ["t"]) (reaches_of_run hrun) htxn havoid⟩

/-- A deleted row meets the condition of an UPDATE, which aborts its transaction. -/
theorem not_serial_update : ¬∀ (db₀ db : Database) (n txnId : ℤ) (txn : Transaction) (tab : String)
    (setClauses : List SetClause) (conds : Bytes → Bool), db₀.Started n →
    (∀ tab rid rec_, db₀.store.slot tab rid = some rec_ → rec_.tupleMeta.ts = 0) →
    db₀.Reaches Serial db → db.activeTxn txnId = some txn →
    UpdatesVisible db txn tab setClauses conds := by
  intro hclaim
  obtain ⟨db, hrun, txn, htxn, habort⟩ : ∃ db, (emptyTables 0 ["t"]).run Serial
        [.begin, .stmt 0 (.insert "t" [.int 1, .int 5]), .commit 0, .begin,
          .stmt 1 (deleteSeq "t" 1), .commit 1, .begin] = some db ∧
      ∃ txn, db.activeTxn 2 = some txn ∧
        (runFrom (execUpdate txn "t" [⟨"b", fun _ => .ok (.int 7)⟩]
          fun data => readWord (data.take 4) = 1) db).1 = .error .transactionAbort :=
    ⟨_, rfl, _, rfl, rfl⟩
  have h := hclaim _ db 0 2 txn "t" [⟨"b", fun _ => .ok (.int 7)⟩] (fun data => readWord (data.take 4) = 1)
    (emptyTables_started le_rfl ["t"]) (emptyTables_fresh 0 ["t"]) (reaches_of_run hrun) htxn
  exact h.keepsTxn _ habort rfl

end Rmdb
