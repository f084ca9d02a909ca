import Mathlib.Algebra.Order.BigOperators.Group.List
import Mathlib.Algebra.Order.Group.Nat
import Rmdb.System.Rollback
import Rmdb.Transaction.Chains

/-! What readers lose to garbage collection, and what it leaves them. -/
namespace Rmdb

open Program Database

namespace TransactionManager

variable {tm tm' : TransactionManager} {txn : Transaction} {ts startTs : ℤ} {link : UndoLink}
  {log : UndoLog}

/-- What garbage collection needs of the transaction table. Unlike `Inv`, it survives itself. -/
structure Marks (tm : TransactionManager) : Prop extends tm.Chained where
  committed : ∀ ts ∈ tm.committedTxns, ts < tm.nextTimestamp ∧ ∀ txn ∈ tm.txnMap, txn.startTs ≠ ts
  aborted : ∀ txn ∈ tm.txnMap, txn.state = .aborted → txn.startTs ∈ tm.abortedTxns

theorem marks_init (n : ℤ) : (init n).Marks where
  ids := (inv_init n).toIds
  heads _ _ h := by cases h
  prevs _ h := by cases h
  ranked := ⟨fun _ => 0, fun link log h => by
    simp [getUndoLogOptional, getTransaction, init] at h⟩
  committed _ h := by cases h
  aborted _ h := by cases h

theorem Marks.inert (h : tm.Marks) (hchained : tm'.Chained) (hinert : tm.Inert tm') : tm'.Marks := by
  refine ⟨hchained, fun ts hts => ?_, fun new hnew hstate => ?_⟩
  · rw [hinert.committedTxns] at hts
    obtain ⟨hlt, hne⟩ := h.committed ts hts
    refine ⟨hinert.nextTimestamp ▸ hlt, fun new hnew => ?_⟩
    obtain ⟨old, hold, -, hstart, -⟩ := hinert.mem hnew
    rw [hstart]
    exact hne old hold
  · obtain ⟨old, hold, -, hstart, hstate', -⟩ := hinert.mem hnew
    rw [hinert.abortedTxns, hstart]
    exact h.aborted old hold (hstate'.symm.trans hstate)

theorem Marks.begin (h : tm.Marks) : tm.begin.2.Marks := by
  refine ⟨h.toChained.begin, fun ts hts => ?_, fun new hnew hstate => ?_⟩
  · obtain ⟨hlt, hne⟩ := h.committed ts hts
    refine ⟨hlt.trans (Int.lt_succ _), fun new hnew => ?_⟩
    rcases mem_begin.mp hnew with hnew | rfl
    · exact hne new hnew
    · exact hlt.ne'
  · rcases mem_begin.mp hnew with hnew | rfl
    · exact h.aborted new hnew hstate
    · cases hstate

theorem Marks.commitTxn (h : tm.Marks) : (tm.commitTxn txn).Marks := by
  have hstart : ∀ new ∈ (tm.commitTxn txn).txnMap, ∃ old ∈ tm.txnMap, new.startTs = old.startTs := by
    intro new hnew
    obtain ⟨old, hold, ⟨-, rfl⟩ | ⟨-, rfl⟩⟩ := mem_commitTxn hnew
    · exact ⟨new, hold, rfl⟩
    · exact ⟨old, hold, rfl⟩
  refine ⟨h.toChained.commitTxn, fun ts hts => ?_, fun new hnew hstate => ?_⟩
  · rcases List.mem_cons.mp hts with rfl | hts
    · refine ⟨Int.lt_succ _, fun new hnew => ?_⟩
      obtain ⟨old, hold, heq⟩ := hstart new hnew
      rw [heq]
      exact (h.ids.start_lt old hold).ne
    · obtain ⟨hlt, hne⟩ := h.committed ts hts
      refine ⟨hlt.trans (Int.lt_succ _), fun new hnew => ?_⟩
      obtain ⟨old, hold, heq⟩ := hstart new hnew
      rw [heq]
      exact hne old hold
  · obtain ⟨old, hold, ⟨-, rfl⟩ | ⟨-, rfl⟩⟩ := mem_commitTxn hnew
    · exact h.aborted new hold hstate
    · cases hstate

theorem Marks.markAborted (h : tm.Marks) (hmem : txn ∈ tm.txnMap) :
    (tm.markAborted txn.txnId txn.startTs).Marks := by
  refine ⟨h.toChained.markAborted, fun ts hts => ?_, fun new hnew hstate => ?_⟩
  · obtain ⟨hlt, hne⟩ := h.committed ts hts
    refine ⟨hlt, fun new hnew => ?_⟩
    obtain ⟨old, hold, ⟨-, rfl⟩ | ⟨-, rfl⟩⟩ := mem_markAborted hnew
    · exact hne new hold
    · exact hne old hold
  · obtain ⟨old, hold, ⟨-, rfl⟩ | ⟨hid, rfl⟩⟩ := mem_markAborted hnew
    · exact List.mem_cons_of_mem _ (h.aborted new hold hstate)
    · rw [h.ids.id_inj old hold txn hmem hid]
      exact List.mem_cons_self

theorem Marks.writeSet {id : ℤ} {f : List WriteRecord → List WriteRecord} (h : tm.Marks) :
    (tm.modifyTxn id fun txn => { txn with writeSet := f txn.writeSet }).Marks :=
  h.inert h.toChained.writeSet (.modifyTxn fun _ => ⟨rfl, rfl, rfl, rfl⟩)

theorem Marks.garbageCollection (h : tm.Marks) : tm.garbageCollection.Marks := by
  refine ⟨h.toChained.garbageCollection, fun ts hts => ?_, fun txn htxn hstate => ?_⟩
  · obtain ⟨hlt, hne⟩ := h.committed ts (List.mem_filter.mp hts).1
    exact ⟨hlt, fun txn htxn => hne txn (mem_garbageCollection.mp htxn).1⟩
  · obtain ⟨hmem, hkept⟩ := mem_garbageCollection.mp htxn
    have hfinished : txn.isFinished = true := by simp [Transaction.isFinished, hstate]
    refine List.mem_filter.mpr ⟨h.aborted txn hmem hstate, ?_⟩
    rw [decide_eq_true_eq]
    exact not_le.mp fun hle => hkept ⟨hfinished, hle⟩

/-! ### What is dropped and what is forgotten -/

/-- Garbage collection drops the transaction and its logs. -/
def Drops (tm : TransactionManager) (txnId : ℤ) : Prop :=
  ∃ txn ∈ tm.txnMap, txn.txnId = txnId ∧ txn.isFinished = true ∧ txn.startTs ≤ tm.runningTxns.watermark

instance (tm : TransactionManager) (txnId : ℤ) : Decidable (tm.Drops txnId) :=
  inferInstanceAs (Decidable (∃ txn ∈ tm.txnMap, _))

/-- Garbage collection forgets that the transaction behind a stamp was aborted. -/
def Forgets (tm : TransactionManager) (ts : ℤ) : Prop :=
  ts ≠ 0 ∧ ts ∈ tm.abortedTxns ∧ ts ≤ tm.runningTxns.watermark

instance (tm : TransactionManager) (ts : ℤ) : Decidable (tm.Forgets ts) :=
  inferInstanceAs (Decidable (_ ∧ _))

theorem Ids.getTransactionByTimestamp_iff (h : tm.Ids) :
    tm.getTransactionByTimestamp ts = some txn ↔ txn ∈ tm.txnMap ∧ txn.startTs = ts := by
  constructor
  · exact mem_of_getTransactionByTimestamp
  · rintro ⟨htxn, rfl⟩
    exact h.getTransactionByTimestamp htxn

theorem Ids.getTransactionByTimestamp_gc (h : tm.Ids) :
    tm.garbageCollection.getTransactionByTimestamp ts =
      (tm.getTransactionByTimestamp ts).filter fun txn : Transaction =>
        !(txn.isFinished && txn.startTs ≤ tm.runningTxns.watermark) := by
  apply Option.ext
  intro txn
  rw [h.garbageCollection.getTransactionByTimestamp_iff, Option.filter_eq_some_iff,
    h.getTransactionByTimestamp_iff, mem_garbageCollection]
  cases txn.isFinished <;> simp
  tauto

theorem Ids.getUndoLogOptional_gc (h : tm.Ids) (hlog : tm.getUndoLogOptional link = some log)
    (hkept : ¬tm.Drops link.prevTxn) : tm.garbageCollection.getUndoLogOptional link = some log := by
  obtain ⟨txn, htxn, hid, hlog⟩ := h.getUndoLogOptional_iff.mp hlog
  refine h.garbageCollection.getUndoLogOptional_iff.mpr ⟨txn, mem_garbageCollection.mpr ⟨htxn, ?_⟩, hid, hlog⟩
  rintro ⟨hfinished, hle⟩
  exact hkept ⟨txn, htxn, hid, hfinished, hle⟩

theorem Ids.getUndoLogOptional_of_gc (h : tm.Ids)
    (hlog : tm.garbageCollection.getUndoLogOptional link = some log) :
    tm.getUndoLogOptional link = some log := by
  obtain ⟨txn, htxn, hid, hlog⟩ := h.garbageCollection.getUndoLogOptional_iff.mp hlog
  exact h.getUndoLogOptional_iff.mpr ⟨txn, (mem_garbageCollection.mp htxn).1, hid, hlog⟩

theorem isTransactionAborted_gc (h : ¬tm.Forgets ts) (hzero : ts ≠ 0) :
    tm.garbageCollection.isTransactionAborted ts = tm.isTransactionAborted ts := by
  have hmem : ts ∈ tm.garbageCollection.abortedTxns ↔ ts ∈ tm.abortedTxns := by
    change ts ∈ tm.abortedTxns.filter _ ↔ _
    rw [List.mem_filter, decide_eq_true_eq]
    constructor
    · exact And.left
    · exact fun hts => ⟨hts, not_le.mp fun hle => h ⟨hzero, hts, hle⟩⟩
  simp only [isTransactionAborted, hmem]

/-- The visibility test gives the same answer, unless an abort is forgotten. -/
theorem Marks.isCommittedBeforeReadTs_gc (h : tm.Marks) (hts : ¬tm.Forgets ts) :
    tm.garbageCollection.isCommittedBeforeReadTs ts startTs = tm.isCommittedBeforeReadTs ts startTs := by
  by_cases hzero : ts = 0
  · simp [isCommittedBeforeReadTs, hzero]
  unfold isCommittedBeforeReadTs
  rw [if_neg hzero, if_neg hzero, isTransactionAborted_gc hts hzero]
  split
  · rfl
  split
  · rfl
  rename_i habort
  have hwatermark : tm.garbageCollection.runningTxns = tm.runningTxns := rfl
  have hcommitted : ts ∈ tm.garbageCollection.committedTxns ↔
      ts ∈ tm.committedTxns ∧ tm.runningTxns.watermark < ts := by
    change ts ∈ tm.committedTxns.filter _ ↔ _
    rw [List.mem_filter, decide_eq_true_eq]
  rw [h.ids.getTransactionByTimestamp_gc, hwatermark]
  by_cases hold : tm.runningTxns.watermark < ts
  · -- A stamp above the watermark: nothing about it is collected.
    have hsame : ts ∈ tm.garbageCollection.committedTxns ↔ ts ∈ tm.committedTxns := by
      rw [hcommitted]
      exact and_iff_left hold
    have hfilter : (tm.getTransactionByTimestamp ts).filter (fun txn : Transaction =>
        !(txn.isFinished && txn.startTs ≤ tm.runningTxns.watermark)) = tm.getTransactionByTimestamp ts := by
      cases hget : tm.getTransactionByTimestamp ts with
      | none => rfl
      | some txn =>
        obtain ⟨-, rfl⟩ := mem_of_getTransactionByTimestamp hget
        simp [Option.filter, not_le.mpr hold]
    simp only [hsame, hfilter]
  · have hnot : ts ∉ tm.garbageCollection.committedTxns := fun hmem => hold (hcommitted.mp hmem).2
    rw [if_neg hnot]
    cases hget : tm.getTransactionByTimestamp ts with
    | none =>
      simp only [Option.filter_none, not_lt.mp hold, decide_true]
      split <;> rfl
    | some txn =>
      obtain ⟨hmem, rfl⟩ := mem_of_getTransactionByTimestamp hget
      have hnotc : txn.startTs ∉ tm.committedTxns := fun hc => (h.committed _ hc).2 txn hmem rfl
      rw [if_neg hnotc]
      cases hstate : txn.state with
      | committed =>
        simp [Option.filter, Transaction.isFinished, hstate, not_lt.mp hold]
      | aborted =>
        exact absurd (h.aborted txn hmem hstate) (by simpa [isTransactionAborted] using habort)
      | default => simp [Option.filter, Transaction.isFinished, hstate]
      | growing => simp [Option.filter, Transaction.isFinished, hstate]
      | shrinking => simp [Option.filter, Transaction.isFinished, hstate]

theorem Ids.active_gc (h : tm.Ids) :
    (tm.garbageCollection.getTransactionByTimestamp ts).any (·.isActive) =
      (tm.getTransactionByTimestamp ts).any (·.isActive) := by
  rw [h.getTransactionByTimestamp_gc]
  cases tm.getTransactionByTimestamp ts with
  | none => rfl
  | some txn =>
    cases hstate : txn.state <;>
      by_cases hle : txn.startTs ≤ tm.runningTxns.watermark <;>
      simp [Option.filter, Transaction.isFinished, Transaction.isActive, hstate, hle]

end TransactionManager

open TransactionManager

/-! ### Reading after garbage collection -/

/-- The log on a walk is kept, and the status of its stamp is not forgotten. -/
def KeepsLog (tm : TransactionManager) (link : UndoLink) (log : UndoLog) : Prop :=
  ¬tm.Drops link.prevTxn ∧ ¬tm.Forgets log.ts

instance (tm : TransactionManager) (link : UndoLink) (log : UndoLog) : Decidable (KeepsLog tm link log) :=
  inferInstanceAs (Decidable (_ ∧ _))

/-- What a reader needs of a row outlives garbage collection: the status of its stamp and, where the
version in the slot does not decide, the chain up to the version that does. A chain whose first log is
not newer than the watermark is cut. -/
def RmFileHandle.GcKeeps (fh : RmFileHandle) (tm : TransactionManager) (startTs : ℤ) (rid : Rid) : Prop :=
  ¬tm.Forgets (tm.effectiveMeta (fh.record rid).tupleMeta).ts ∧
    (fh.readsInPlace tm startTs rid ∨ fh.deletedByActive tm rid ∨
      ∀ link ∈ tm.getVersionLink rid, ∀ log ∈ tm.getUndoLogOptional link,
        tm.runningTxns.watermark < log.ts ∧
          Chain.Along tm.getUndoLogOptional UndoLog.prevVersion (logDecision fh tm startTs) (KeepsLog tm)
            (tm.logCount + 1) link)

instance (fh : RmFileHandle) (tm : TransactionManager) (startTs : ℤ) (rid : Rid) :
    Decidable (fh.GcKeeps tm startTs rid) := by
  unfold RmFileHandle.GcKeeps
  infer_instance

section
variable {tm : TransactionManager} {fh : RmFileHandle} {startTs : ℤ} {rid : Rid} {link : UndoLink}

theorem TransactionManager.logCount_gc : tm.garbageCollection.logCount ≤ tm.logCount := by
  have hsub : (tm.garbageCollection.txnMap.map fun txn : Transaction => txn.undoLogs.length).Sublist
      (tm.txnMap.map fun txn : Transaction => txn.undoLogs.length) :=
    (List.filter_sublist (l := tm.txnMap)).map _
  exact hsub.sum_le_sum fun _ _ => Nat.zero_le _

theorem TransactionManager.Marks.walkHistory_gc (h : tm.Marks)
    (halong : Chain.Along tm.getUndoLogOptional UndoLog.prevVersion (logDecision fh tm startTs) (KeepsLog tm)
      (tm.logCount + 1) link) :
    fh.walkHistory tm.garbageCollection startTs (tm.garbageCollection.logCount + 1) link =
      fh.walkHistory tm startTs (tm.logCount + 1) link := by
  have hle := tm.logCount_gc
  rw [h.garbageCollection.walkHistory_fuel fh startTs (tm.logCount + 1) (by omega) (by omega),
    walkHistory_eq, walkHistory_eq]
  refine Chain.walk_congr halong (fun l hl => ?_) fun l log hl hkept => ⟨?_, ?_⟩
  · cases hlog : tm.garbageCollection.getUndoLogOptional l with
    | none => rfl
    | some log => exact absurd (hl.symm.trans (h.ids.getUndoLogOptional_of_gc hlog)) nofun
  · exact h.ids.getUndoLogOptional_gc hl hkept.1
  · have hvisible : tm.garbageCollection.logVisible startTs log = tm.logVisible startTs log := by
      unfold logVisible
      rw [h.isCommittedBeforeReadTs_gc hkept.2]
    unfold logDecision
    rw [hvisible]

theorem TransactionManager.Marks.history_gc (h : tm.Marks) (hpage : fh.hasPage rid.pageNo)
    (hpos : 0 < (fh.record rid).tupleMeta.ts)
    (hchain : ∀ link ∈ tm.getVersionLink rid, ∀ log ∈ tm.getUndoLogOptional link,
      tm.runningTxns.watermark < log.ts ∧
        Chain.Along tm.getUndoLogOptional UndoLog.prevVersion (logDecision fh tm startTs) (KeepsLog tm)
          (tm.logCount + 1) link) :
    fh.getVisibleVersionFromHistory tm.garbageCollection startTs rid =
      fh.getVisibleVersionFromHistory tm startTs rid := by
  have hfallback : ∀ tm : TransactionManager, fh.currentFallback tm startTs rid =
      some ⟨none, (fh.record rid).row⟩ := fun tm => RmFileHandle.currentFallback_of_pos hpage hpos
  unfold RmFileHandle.getVisibleVersionFromHistory
  cases hlink : tm.getVersionLink rid with
  | none =>
    have hnone : tm.garbageCollection.getVersionLink rid = none := by
      unfold getVersionLink at hlink ⊢
      split at hlink
      · rw [if_pos ‹_›]
      · rw [if_neg ‹_›]
        change (tm.versionInfo rid).filter _ = none
        rw [hlink]
        rfl
    rw [hnone, hfallback, hfallback]
  | some link =>
    have hhead : tm.versionInfo rid = some link := by
      unfold getVersionLink at hlink
      split at hlink
      · cases hlink
      · exact hlink
    cases hlog : tm.getUndoLogOptional link with
    | none =>
      -- A chain that ends at once: the version in the slot is served with it or without it.
      have hdead : ∀ tm' : TransactionManager, tm'.getUndoLogOptional link = none → ∀ fuel,
          fh.walkHistory tm' startTs fuel link = none := by
        intro tm' hnone fuel
        rw [walkHistory_eq]
        exact Chain.walk_of_none hnone
      have hgone : tm.garbageCollection.getUndoLogOptional link = none := by
        cases hgc : tm.garbageCollection.getUndoLogOptional link with
        | none => rfl
        | some log => exact absurd (hlog.symm.trans (h.ids.getUndoLogOptional_of_gc hgc)) nofun
      simp only [hdead tm hlog, hfallback]
      split
      · rfl
      · rename_i link' hlink'
        have heq : link' = link := by
          unfold getVersionLink at hlink'
          split at hlink'
          · cases hlink'
          · have hmem := (Option.filter_eq_some_iff.mp hlink').1
            exact Option.some.inj (hmem.symm.trans hhead)
        rw [heq, hdead _ hgone]
    | some log =>
      obtain ⟨hnew, halong⟩ := hchain link hlink log hlog
      have hfirst : KeepsLog tm link log := by
        simp only [Chain.Along, hlog] at halong
        exact halong.1
      have hvalid : link.isValid = true := by
        unfold UndoLink.isValid
        rw [decide_eq_true_eq]
        intro hinvalid
        simp [TransactionManager.getUndoLogOptional, getTransaction, hinvalid] at hlog
      have hsame : tm.garbageCollection.getVersionLink rid = some link := by
        unfold getVersionLink at hlink ⊢
        split at hlink
        · cases hlink
        · rw [if_neg ‹_›]
          change (tm.versionInfo rid).filter _ = some link
          rw [Option.filter_eq_some_iff]
          have hgc := h.ids.getUndoLogOptional_gc hlog hfirst.1
          refine ⟨hhead, ?_⟩
          rw [Bool.and_eq_true]
          refine ⟨hvalid, ?_⟩
          change (tm.garbageCollection.getUndoLogOptional link).any _ = true
          rw [hgc]
          simpa using hnew
      rw [hsame]
      dsimp only
      rw [h.walkHistory_gc halong]
      split
      · rfl
      · rw [hfallback, hfallback]

theorem TransactionManager.Marks.getRecordMvcc_gc (h : tm.Marks) (hkeeps : fh.GcKeeps tm startTs rid) :
    fh.getRecordMvcc tm.garbageCollection startTs rid = fh.getRecordMvcc tm startTs rid := by
  by_cases hpage : fh.hasPage rid.pageNo
  · refine RmFileHandle.getRecordMvcc_congr hpage hpage rfl rfl ?_ ?_ ?_
    · rintro ts rfl
      exact h.isCommittedBeforeReadTs_gc hkeeps.1
    · intro hplace
      have hzero : (tm.effectiveMeta (fh.record rid).tupleMeta).ts ≠ 0 := fun hzero => hplace (.inl hzero)
      change _ ∧ _ ∧ _ ↔ _ ∧ _ ∧ _
      have hmeta : tm.garbageCollection.effectiveMeta (fh.record rid).tupleMeta =
          tm.effectiveMeta (fh.record rid).tupleMeta := rfl
      rw [hmeta, isTransactionAborted_gc hkeeps.1 hzero, h.ids.active_gc]
    · intro hplace hthrow
      rcases hkeeps.2 with hplace' | hthrow' | hchain
      · exact absurd hplace' hplace
      · exact absurd hthrow' hthrow
      · exact h.history_gc hpage (RmFileHandle.pos_of_not_readsInPlace hplace) hchain
  · simp only [RmFileHandle.getRecordMvcc, hpage, not_false_eq_true, if_true]

end

/-! ### Runs -/

variable {db db' db₀ : Database} {txnId : ℤ} {txn : Transaction} {tab : String} {rid : Rid}

theorem Database.marks_step {action : Action} (hstep : db.step action = some db')
    (h : db.store.txnMgr.Marks) : db'.store.txnMgr.Marks := by
  cases action with
  | begin =>
    cases hstep
    exact h.begin
  | stmt txnId stmt =>
    obtain ⟨txn, -, -, hsteps⟩ := step_stmt hstep
    exact h.inert (hsteps.chained h.toChained) hsteps.inert
  | commit txnId =>
    obtain ⟨txn, htxn, rfl⟩ := step_commit hstep
    rw [Store.commit_txnMgr]
    exact h.commitTxn
  | abort txnId =>
    obtain ⟨txn, store, htxn, habort, rfl⟩ := step_abort hstep
    rw [Store.rollbackAll_txnMgr habort]
    exact (h.markAborted (activeTxn_mem htxn).1).writeSet
      (f := fun ws => ws.take (ws.length - txn.writeSet.length))
  | markAborted txnId =>
    obtain ⟨txn, htxn, rfl⟩ := step_markAborted hstep
    exact h.markAborted (activeTxn_mem htxn).1
  | rollbackOne txnId =>
    obtain ⟨txn, store, -, -, hroll, rfl⟩ := step_rollbackOne hstep
    obtain ⟨-, -, -, -, -, -, htxnMgr, -⟩ := Store.rollbackOne_eq hroll
    rw [htxnMgr]
    exact h.writeSet (f := List.dropLast)
  | garbageCollection =>
    cases hstep
    exact h.garbageCollection
  | createTable tab colDefs =>
    rcases step_createTable hstep with rfl | ⟨-, recordSize, hstore⟩
    · exact h
    · rw [hstore]
      exact h
  | dropTable tab =>
    rcases step_dropTable hstep with hsame | hstore
    · rw [hsame]
      exact h
    · rw [hstore]
      exact h
  | createIndex tab colNames unique =>
    rw [step_createIndex hstep]
    exact h

theorem Database.Reaches.marks {allowed : Database → Action → Prop} (hreach : Reaches allowed db db')
    (h : db.store.txnMgr.Marks) : db'.store.txnMgr.Marks := by
  induction hreach with
  | refl => exact h
  | tail _ hstep ih =>
    obtain ⟨action, -, hstep⟩ := hstep
    exact marks_step hstep ih

/-- A statement of the transaction that does not write the slot number, in whatever table. -/
def WritesElsewhere (rid : Rid) (db : Database) : Action → Prop
  | .stmt txnId stmt => ∀ txn ∈ db.activeTxn txnId, rid ∉ stmt.targets db txn
  | _ => True

instance (rid : Rid) (db : Database) (action : Action) : Decidable (WritesElsewhere rid db action) :=
  match action with
  | .stmt _ _ => by dsimp only [WritesElsewhere]; infer_instance
  | .begin | .commit _ | .abort _ | .markAborted _ | .rollbackOne _ | .garbageCollection | .createTable _ _
  | .dropTable _ | .createIndex _ _ _ => isTrue trivial

theorem Database.run_stmts_read {startTs : ℤ} {stmts : List Statement} (h : db.store.txnMgr.Marks)
    (hpage : db.store.hasPage tab rid.pageNo)
    (hrun : db.run (WritesElsewhere rid) (stmts.map (.stmt txnId)) = some db') :
    db'.store.getRecordMvcc tab startTs rid = db.store.getRecordMvcc tab startTs rid := by
  induction stmts generalizing db with
  | nil =>
    cases hrun
    rfl
  | cons stmt stmts ih =>
    obtain ⟨helse, mid, hstep, hrun⟩ := run_cons hrun
    obtain ⟨txn, htxn, -, hsteps⟩ := step_stmt hstep
    obtain ⟨hread, hpage'⟩ := StmtSteps.getRecordMvcc hsteps h.toChained
      (helse txn htxn) hpage
    exact (ih (marks_step hstep h) hpage' hrun).trans hread

/-- Garbage collection goes unnoticed where it keeps what a reader needs: at once, and after any
statements of the reader that write elsewhere. -/
structure GcInvisible (db : Database) (txnId : ℤ) (txn : Transaction) (tab : String) (rid : Rid) :
    Prop where
  now : ∀ db', db.step .garbageCollection = some db' →
    db'.store.getRecordMvcc tab txn.startTs rid = db.store.getRecordMvcc tab txn.startTs rid
  later : db.store.hasPage tab rid.pageNo → ∀ (db' : Database) (stmts : List Statement) (db'' : Database),
    db.step .garbageCollection = some db' →
    db'.run (WritesElsewhere rid) (stmts.map (.stmt txnId)) = some db'' →
    db''.store.getRecordMvcc tab txn.startTs rid = db.store.getRecordMvcc tab txn.startTs rid

/-- What a reader needs of a row, in the file of its table. -/
def Database.GcKeeps (db : Database) (txn : Transaction) (tab : String) (rid : Rid) : Prop :=
  ∀ fh ∈ db.store.fhs tab, fh.GcKeeps db.store.txnMgr txn.startTs rid

instance (db : Database) (txn : Transaction) (tab : String) (rid : Rid) :
    Decidable (db.GcKeeps txn tab rid) := by
  unfold Database.GcKeeps
  infer_instance

theorem gc_invisible {n : ℤ} {allowed : Database → Action → Prop} (hstart : db₀.Started n)
    (hreach : db₀.Reaches allowed db) (hkeeps : db.GcKeeps txn tab rid) :
    GcInvisible db txnId txn tab rid := by
  have hmarks : db.store.txnMgr.Marks := hreach.marks (hstart.txnMgr ▸ marks_init n)
  have hnow : ∀ db', db.step .garbageCollection = some db' →
      db'.store.getRecordMvcc tab txn.startTs rid = db.store.getRecordMvcc tab txn.startTs rid := by
    intro db' hstep
    cases hstep
    change Store.getRecordMvcc db.store.garbageCollection tab txn.startTs rid = _
    have hfhs : db.store.garbageCollection.fhs = db.store.fhs := rfl
    unfold Store.getRecordMvcc
    rw [hfhs]
    cases hfh : db.store.fhs tab with
    | none => rfl
    | some fh => exact hmarks.getRecordMvcc_gc (hkeeps fh hfh)
  refine ⟨hnow, fun hpage db' stmts db'' hstep hrun => ?_⟩
  have hpage' : db'.store.hasPage tab rid.pageNo := by
    cases hstep
    exact hpage
  exact (run_stmts_read (marks_step hstep hmarks) hpage' hrun).trans (hnow db' hstep)

/-- Transaction 1 reads the old version of a row that transaction 2 has updated. -/
theorem gc_invisible_updated :
    ∃ db txn, (emptyTables 1 ["t"]).run (fun _ _ => True)
        [.begin, .stmt 0 (.insert "t" [.int 1, .int 5]), .commit 0, .begin, .begin,
          .stmt 2 (updateB "t" 1 7)] = some db ∧
      db.activeTxn 1 = some txn ∧ GcInvisible db 1 txn "t" ⟨1, 0⟩ := by
  obtain ⟨db, hrun, txn, htxn, hkeeps⟩ : ∃ db, (emptyTables 1 ["t"]).run (fun _ _ => True)
        [.begin, .stmt 0 (.insert "t" [.int 1, .int 5]), .commit 0, .begin, .begin,
          .stmt 2 (updateB "t" 1 7)] = some db ∧
      ∃ txn, db.activeTxn 1 = some txn ∧ db.GcKeeps txn "t" ⟨1, 0⟩ :=
    ⟨_, rfl, _, rfl, by decide +kernel⟩
  exact ⟨db, txn, hrun, htxn, gc_invisible (emptyTables_started (n := 1) (by decide) ["t"])
    (reaches_of_run hrun) hkeeps⟩

/-- Transaction 1 has inserted a row that transaction 0 must not see. The undo log of the INSERT
carries timestamp 0, its chain is cut, and transaction 0 is served the row. -/
theorem not_gc_invisible : ¬∀ (db₀ db : Database) (n txnId : ℤ) (txn : Transaction) (tab : String)
    (rid : Rid), db₀.Started n → db₀.Reaches (fun _ _ => True) db → db.activeTxn txnId = some txn →
    GcInvisible db txnId txn tab rid := by
  intro hclaim
  obtain ⟨db, hrun, txn, htxn, hbefore, hafter⟩ : ∃ db, (emptyTables 1 ["t"]).run (fun _ _ => True)
        [.begin, .begin, .stmt 1 (.insert "t" [.int 1, .int 5])] = some db ∧
      ∃ txn, db.activeTxn 0 = some txn ∧
        db.store.getRecordMvcc "t" txn.startTs ⟨1, 0⟩ = .ok none ∧
        db.store.garbageCollection.getRecordMvcc "t" txn.startTs ⟨1, 0⟩ ≠ .ok none :=
    ⟨_, rfl, _, rfl, rfl, by decide +kernel⟩
  have hnow := (hclaim _ db 1 0 txn "t" ⟨1, 0⟩ (emptyTables_started (by decide) ["t"])
    (reaches_of_run hrun) htxn).now _ rfl
  exact hafter (hnow.trans hbefore)

end Rmdb
