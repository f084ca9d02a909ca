import Rmdb.System.DirtyReads

/-! The version of a row that a snapshot shows: the record in the slot, or the first undo log of its chain with a timestamp
that the reader sees. What other transactions do to the slot, to the logs or to their own status leaves it as it is. -/
namespace Rmdb

open Database

namespace TransactionManager

variable {tm tm' : TransactionManager} {txn owner : Transaction} {ts readTs : ℤ} {isDeleted : Bool} {row : RowData}
  {link : UndoLink} {log : UndoLog}

/-- Whether versions with the timestamp are shown to a reader that started at `readTs`. -/
def Sees (tm : TransactionManager) (readTs ts : ℤ) : Prop :=
  ts = 0 ∨ ts = readTs ∨ tm.isCommittedBeforeReadTs ts readTs = true

instance (tm : TransactionManager) (readTs ts : ℤ) : Decidable (tm.Sees readTs ts) :=
  inferInstanceAs (Decidable (_ ∨ _ ∨ _))

/-- The version that an undo log stands for, where the reader sees it. -/
def shownLog (tm : TransactionManager) (readTs : ℤ) (log : UndoLog) : Option (Option RowData) :=
  if tm.Sees readTs log.ts ∧ (log.isDeleted = true ∨ log.tuple ≠ []) then
    some (if log.isDeleted then none else some log.source)
  else none

/-- The version that the chain from a link shows. -/
def shownFrom (tm : TransactionManager) (readTs : ℤ) (link : UndoLink) : Option RowData :=
  (Chain.walk tm.getUndoLogOptional UndoLog.prevVersion (tm.shownLog readTs) (tm.logCount + 1) link).join

/-- A timestamp of a transaction is seen once that has committed, by those who start later. -/
theorem Inv.sees_iff (h : tm.Inv) (howner : owner ∈ tm.txnMap) (hstamp : owner.HasStamp ts) (hts : ts ≠ 0) :
    tm.Sees readTs ts ↔ ts = readTs ∨ ts < readTs ∧ owner.state = .committed := by
  unfold Sees
  constructor
  · rintro (hzero | hown | hbefore)
    · exact absurd hzero hts
    · exact .inl hown
    · refine .inr ⟨?_, (h.committed_of_before howner hstamp hts hbefore).1⟩
      by_contra hge
      simp [isCommittedBeforeReadTs, hts, not_lt.mp hge] at hbefore
  · rintro (hown | ⟨hlt, hstate⟩)
    · exact .inr (.inl hown)
    · refine .inr (.inr ?_)
      have habort : ts ∉ tm.abortedTxns := by
        rcases hstamp with rfl | ⟨-, rfl⟩
        · exact h.not_aborted_of_active howner (by simp [hstate])
        · exact h.commitTs_not_aborted howner hstate
      have hge : ¬readTs ≤ ts := by omega
      simp only [isCommittedBeforeReadTs, hts, if_false, hge, isTransactionAborted, habort, decide_false,
        Bool.false_eq_true]
      split
      · rfl
      · rename_i hmem
        rcases hstamp with rfl | ⟨-, rfl⟩
        · simp only [h.getTransactionByTimestamp howner, hstate, decide_true]
        · exact absurd (h.committed owner howner hstate).2.2 hmem

theorem sees_zero : tm.Sees readTs 0 := .inl rfl

/-- The versions of an active transaction are shown to nobody else. -/
theorem Inv.not_sees_active (h : tm.Inv) (htxn : txn ∈ tm.txnMap) (hactive : txn.isActive = true) (hpos : txn.startTs ≠ 0)
    (hne : txn.startTs ≠ readTs) : ¬tm.Sees readTs txn.startTs := by
  rw [h.sees_iff htxn (.inl rfl) hpos]
  rintro (hown | ⟨-, hstate⟩)
  · exact hne hown
  · simp [Transaction.isActive, hstate] at hactive

/-! ### Chains -/

theorem Chained.walk_fuel {β : Type} {decision : UndoLog → Option β} (h : tm.Chained) {fuel fuel' : ℕ}
    (hf : tm.logCount < fuel) (hf' : tm.logCount < fuel') :
    Chain.walk tm.getUndoLogOptional UndoLog.prevVersion decision fuel link =
      Chain.walk tm.getUndoLogOptional UndoLog.prevVersion decision fuel' link := by
  obtain ⟨rank, hrank⟩ := h.ranked
  have hcard : tm.logLinks.toFinset.card ≤ tm.logCount := length_logLinks ▸ tm.logLinks.toFinset_card_le
  refine Chain.walk_fuel hrank tm.logLinks.toFinset (fun l n hl => ?_) (by omega) (by omega)
  exact List.mem_toFinset.mpr (h.ids.mem_logLinks hl)

/-- One log of the walk. -/
theorem Chained.shownFrom_eq (h : tm.Chained) (hlog : tm.getUndoLogOptional link = some log) :
    tm.shownFrom readTs link =
      if tm.Sees readTs log.ts ∧ (log.isDeleted = true ∨ log.tuple ≠ []) then
        if log.isDeleted then none else some log.source
      else tm.shownFrom readTs log.prevVersion := by
  unfold shownFrom
  rw [h.walk_fuel (Nat.lt_succ_self _) (Nat.lt_succ_of_lt (Nat.lt_succ_self _)), Chain.walk, hlog]
  dsimp only
  by_cases hshown : tm.Sees readTs log.ts ∧ (log.isDeleted = true ∨ log.tuple ≠ [])
  · have hdecides : tm.shownLog readTs log = some (if log.isDeleted then none else some log.source) := if_pos hshown
    rw [hdecides, if_pos hshown]
    rfl
  · have hpasses : tm.shownLog readTs log = none := if_neg hshown
    rw [hpasses, if_neg hshown]

/-- A log after a step: at most its timestamp is another one, and the reader sees both or neither. -/
structure SameLog (tm tm' : TransactionManager) (readTs : ℤ) (log new : UndoLog) : Prop where
  isDeleted : new.isDeleted = log.isDeleted
  tuple : new.tuple = log.tuple
  source : new.source = log.source
  prevVersion : new.prevVersion = log.prevVersion
  sees : tm'.Sees readTs new.ts ↔ tm.Sees readTs log.ts

/-- A chain that comes to a log for all readers shows the same version where its logs stay. -/
theorem Founded.shownFrom_congr (hfounded : tm.Founded link) (hc : tm.Chained) (hc' : tm'.Chained)
    (hlogs : ∀ link log, tm.getUndoLogOptional link = some log →
      ∃ new, tm'.getUndoLogOptional link = some new ∧ SameLog tm tm' readTs log new) :
    tm'.shownFrom readTs link = tm.shownFrom readTs link := by
  unfold Founded at hfounded
  induction hfounded with
  | @here link log hlog hheeded =>
    obtain ⟨new, hnew, hsame⟩ := hlogs _ _ hlog
    have hshown : tm.Sees readTs log.ts ∧ (log.isDeleted = true ∨ log.tuple ≠ []) :=
      ⟨hheeded.1 ▸ sees_zero, hheeded.2⟩
    rw [hc.shownFrom_eq hlog, hc'.shownFrom_eq hnew, hsame.isDeleted, hsame.tuple, hsame.source]
    simp only [hsame.sees]
    rw [if_pos hshown, if_pos hshown]
  | there hlog _ ih =>
    obtain ⟨new, hnew, hsame⟩ := hlogs _ _ hlog
    rw [hc.shownFrom_eq hlog, hc'.shownFrom_eq hnew, hsame.isDeleted, hsame.tuple, hsame.source, hsame.prevVersion, ih]
    simp only [hsame.sees]

end TransactionManager

namespace Store

open TransactionManager

variable {s s' : Store} {tab : String} {rid : Rid} {rec_ : RmRecord} {readTs : ℤ}

/-- The version of the row in a used slot that is shown to a reader that started at `readTs`. -/
def shownAt (s : Store) (readTs : ℤ) (tab : String) (rid : Rid) : Option RowData :=
  match s.slot tab rid with
  | none => none
  | some rec_ =>
    if s.occupied tab rid then
      if s.txnMgr.Sees readTs rec_.tupleMeta.ts then
        if rec_.tupleMeta.isDeleted then none else some rec_.row
      else (s.txnMgr.versionInfo rid).bind (s.txnMgr.shownFrom readTs)
    else none

theorem shownAt_eq (hslot : s.slot tab rid = some rec_) : s.shownAt readTs tab rid =
    if s.occupied tab rid then
      if s.txnMgr.Sees readTs rec_.tupleMeta.ts then
        if rec_.tupleMeta.isDeleted then none else some rec_.row
      else (s.txnMgr.versionInfo rid).bind (s.txnMgr.shownFrom readTs)
    else none := by
  unfold shownAt
  rw [hslot]

theorem shownAt_of_free (hfree : s.occupied tab rid = false) : s.shownAt readTs tab rid = none := by
  unfold shownAt
  rw [hfree]
  cases s.slot tab rid with
  | none => rfl
  | some rec_ => rfl

/-! ### What is read of the version -/

/-- What a scan is served of a slot. -/
def readRow (s : Store) (tab : String) (startTs : ℤ) (rid : Rid) : Except DbError (Option RecordView) :=
  if s.occupied tab rid then s.getRecordMvcc tab startTs rid else .ok none

/-- A reader is given a version as it is, or what an undo log has kept of it. -/
structure Serves (s : Store) (tab : String) (row : RowData) (view : RecordView) : Prop where
  header : view.header = none
  row : view.row = row ∨ ∃ fh link log, s.fhs tab = some fh ∧ s.txnMgr.getUndoLogOptional link = some log ∧
    log.isDeleted = false ∧ log.source = row ∧ fh.reconstructTupleFromUndoLog log = some view.row

/-- Nothing is read of no version. -/
def ServesShown (s : Store) (tab : String) (shown : Option RowData) (read : Option RecordView) : Prop :=
  shown = none ∧ read = none ∨ ∃ row view, shown = some row ∧ read = some view ∧ s.Serves tab row view

theorem logDecision_shownLog (tm : TransactionManager) (fh : RmFileHandle) (log : UndoLog) :
    logDecision fh tm readTs log = none ∧ tm.shownLog readTs log = none ∨
      ∃ restored shown, logDecision fh tm readTs log = some restored ∧ tm.shownLog readTs log = some shown ∧
        (restored = none ∧ shown = none ∨ ∃ row, restored = some row ∧ shown = some log.source ∧ log.isDeleted = false ∧
          fh.reconstructTupleFromUndoLog log = some row) := by
  have hsees : tm.logVisible readTs log = true ↔ tm.Sees readTs log.ts := by
    refine ⟨visible_of_logVisible, fun hsees => ?_⟩
    unfold TransactionManager.logVisible
    rcases hsees with hzero | hown | hbefore
    · simp [hzero]
    · simp [hown]
    · by_cases hlt : log.ts < readTs
      · simp [hlt, hbefore]
      · by_cases hzero : log.ts = 0
        · simp [hzero]
        · simp [TransactionManager.isCommittedBeforeReadTs, hzero, not_lt.mp hlt] at hbefore
  unfold logDecision TransactionManager.shownLog
  by_cases hvisible : tm.Sees readTs log.ts
  · rw [if_pos (hsees.mpr hvisible)]
    cases hdel : log.isDeleted with
    | true => exact .inr ⟨none, none, rfl, if_pos ⟨hvisible, .inl rfl⟩, .inl ⟨rfl, rfl⟩⟩
    | false =>
      rw [if_neg Bool.false_ne_true]
      cases hrow : fh.reconstructTupleFromUndoLog log with
      | none =>
        refine .inl ⟨rfl, if_neg fun hshown => ?_⟩
        have htuple : log.tuple ≠ [] := hshown.2.resolve_left Bool.false_ne_true
        unfold RmFileHandle.reconstructTupleFromUndoLog at hrow
        rw [if_neg (by simpa using htuple)] at hrow
        cases hrow
      | some row =>
        have htuple : log.tuple ≠ [] := by
          intro hnil
          simp [RmFileHandle.reconstructTupleFromUndoLog, hnil] at hrow
        exact .inr ⟨some row, some log.source, rfl, if_pos ⟨hvisible, .inr htuple⟩, .inr ⟨row, rfl, rfl, rfl, rfl⟩⟩
  · exact .inl ⟨if_neg fun h => hvisible (hsees.mp h), if_neg fun h => hvisible h.1⟩

/-- A read that does not throw serves the version that is shown. -/
theorem Attributed.servesShown {startTs : ℤ} {read : Option RecordView} (h : s.Attributed)
    (hread : s.readRow tab startTs rid = .ok read) : s.ServesShown tab (s.shownAt startTs tab rid) read := by
  unfold readRow at hread
  cases hocc : s.occupied tab rid with
  | false =>
    rw [hocc] at hread
    obtain rfl := Except.ok.inj hread
    exact .inl ⟨shownAt_of_free hocc, rfl⟩
  | true =>
    rw [hocc, if_pos rfl] at hread
    cases hfh : s.fhs tab with
    | none => simp [occupied, hfh] at hocc
    | some fh =>
      have hpage : fh.hasPage rid.pageNo := (RmFileHandle.isRecord_iff.mp ((occupied_eq hfh).symm.trans hocc)).1
      simp only [getRecordMvcc, hfh] at hread
      have hrid : 0 ≤ rid.slotNo := by
        by_contra hneg
        rw [RmFileHandle.getRecordMvcc, if_neg (not_not_intro hpage), if_pos (not_le.mp hneg)] at hread
        cases hread
      have hversion := h.slots tab rid _ (slot_eq hfh)
      have hplace : fh.readsInPlace s.txnMgr startTs rid ↔ s.txnMgr.Sees startTs (fh.record rid).tupleMeta.ts := by
        unfold RmFileHandle.readsInPlace
        rw [h.effectiveMeta hversion]
        rfl
      rw [RmFileHandle.getRecordMvcc_eq hrid hpage, h.effectiveMeta hversion] at hread
      rw [shownAt_eq (slot_eq hfh), hocc, if_pos rfl]
      by_cases hsees : s.txnMgr.Sees startTs (fh.record rid).tupleMeta.ts
      · rw [if_pos (hplace.mpr hsees)] at hread
        rw [if_pos hsees]
        obtain rfl := Except.ok.inj hread
        split
        · exact .inl ⟨rfl, rfl⟩
        · refine .inr ⟨_, _, rfl, rfl, ?_, .inl rfl⟩
          exact if_pos (h.hasTupleMeta hversion)
      · have hhidden : ¬fh.readsInPlace s.txnMgr startTs rid := fun hp => hsees (hplace.mp hp)
        rw [if_neg hhidden] at hread
        rw [if_neg hsees]
        split at hread
        · cases hread
        · obtain ⟨link, restored, hlink, hwalk⟩ := h.history_decides_walk hfh hrid hpage hhidden
          have hview := Except.ok.inj hread
          simp only [RmFileHandle.getVisibleVersionFromHistory, hlink, hwalk] at hview
          rw [walkHistory_eq] at hwalk
          obtain ⟨link', log, shown, hlog, hshown, hrel⟩ :=
            Chain.walk_rel (logDecision_shownLog s.txnMgr fh) hwalk
          rw [versionInfo_of_getVersionLink hlink, Option.bind_some, TransactionManager.shownFrom, hshown, ← hview]
          rcases hrel with ⟨rfl, rfl⟩ | ⟨row, rfl, rfl, hdel, hrow⟩
          · exact .inl ⟨rfl, rfl⟩
          · exact .inr ⟨_, _, rfl, rfl, rfl, .inr ⟨fh, link', log, hfh, hlog, hdel, rfl, hrow⟩⟩

end Store
end Rmdb
