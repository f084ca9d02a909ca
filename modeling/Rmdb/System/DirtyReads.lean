import Rmdb.System.ChainSteps
import Rmdb.System.CommittedEffects

/-! Whose versions a reader is served: the timestamps in the slots and in the undo logs lead back to the writers, and every
chain comes to a log that says something to all readers. -/
namespace Rmdb

open Database

/-- Statements write with a timestamp other than 0, and no garbage is collected. -/
def WritesStamped (db : Database) : Action → Prop
  | .stmt txnId _ => ∀ txn ∈ db.activeTxn txnId, 1 ≤ txn.startTs
  | .garbageCollection => False
  | _ => True

instance (db : Database) (action : Action) : Decidable (WritesStamped db action) :=
  match action with
  | .stmt _ _ => by dsimp only [WritesStamped]; infer_instance
  | .garbageCollection => isFalse id
  | .begin | .commit _ | .abort _ | .markAborted _ | .rollbackOne _ | .createTable _ _ | .dropTable _
  | .createIndex _ _ _ => isTrue trivial

theorem WritesStamped.ne_garbageCollection {db : Database} {action : Action} (h : WritesStamped db action) :
    action ≠ .garbageCollection := by
  rintro rfl
  exact h

/-- The timestamps that the versions of a transaction carry, before its commit and after it. -/
def Transaction.HasStamp (txn : Transaction) (ts : ℤ) : Prop :=
  txn.startTs = ts ∨ txn.state = .committed ∧ txn.commitTs = ts

namespace TransactionManager

variable {tm tm' : TransactionManager} {txn owner : Transaction} {ts readTs : ℤ} {isDeleted : Bool} {row : RowData}
  {link : UndoLink} {log : UndoLog}

/-- The writers whose rows a transaction may be served: itself, whoever wrote before the server was started, and the
transactions that have committed and started earlier. -/
def MayRead (tm : TransactionManager) (txn : Transaction) (writer : ℤ) : Prop :=
  writer = invalidTxnId ∨ writer = txn.txnId ∨
    ∃ owner ∈ tm.txnMap, owner.txnId = writer ∧ owner.state = .committed ∧ owner.startTs < txn.startTs

instance (tm : TransactionManager) (txn : Transaction) (writer : ℤ) : Decidable (tm.MayRead txn writer) :=
  inferInstanceAs (Decidable (_ ∨ _ ∨ ∃ owner ∈ tm.txnMap, _))

/-- A version with the timestamp 0 holds a row from before the start; behind any other timestamp is a transaction, which has
written the row unless it has aborted. -/
structure Attributes (tm : TransactionManager) (ts : ℤ) (isDeleted : Bool) (row : RowData) : Prop where
  initial : ts = 0 → isDeleted = false → row.writer = invalidTxnId
  stamped : ts ≠ 0 → ∃ owner ∈ tm.txnMap, owner.HasStamp ts ∧
    (isDeleted = false → owner.state ≠ .aborted → row.writer = owner.txnId)

/-- A log that every reader heeds. -/
def Heeded (log : UndoLog) : Prop := log.ts = 0 ∧ (log.isDeleted = true ∨ log.tuple ≠ [])

/-- The chain from the link comes to such a log. -/
def Founded (tm : TransactionManager) (link : UndoLink) : Prop :=
  Chain.Holds tm.getUndoLogOptional UndoLog.prevVersion Heeded link

/-! ### Timestamps and their transactions -/

theorem Grows.hasStamp {old : Transaction} (h : tm.Grows tm') (hold : old ∈ tm.txnMap) (hstamp : old.HasStamp ts) :
    ∃ new ∈ tm'.txnMap, new.txnId = old.txnId ∧ new.HasStamp ts ∧ (new.state ≠ .aborted → old.state ≠ .aborted) := by
  obtain ⟨new, hnew, hid, hstart, hfin⟩ := h.keeps old hold
  refine ⟨new, hnew, hid, ?_, fun hstate haborted => hstate ?_⟩
  · rcases hstamp with hts | ⟨hstate, hts⟩
    · exact .inl (hstart.trans hts)
    · obtain ⟨hstate', hcommit⟩ := hfin (by simp [Transaction.isActive, hstate])
      exact .inr ⟨hstate'.trans hstate, hcommit.trans hts⟩
  · exact (hfin (by simp [Transaction.isActive, haborted])).1.trans haborted

theorem Attributes.mono (h : tm.Attributes ts isDeleted row) (hgrows : tm.Grows tm') :
    tm'.Attributes ts isDeleted row := by
  refine ⟨h.initial, fun hts => ?_⟩
  obtain ⟨owner, howner, hstamp, hwriter⟩ := h.stamped hts
  obtain ⟨new, hnew, hid, hstamp', hstate⟩ := hgrows.hasStamp howner hstamp
  exact ⟨new, hnew, hstamp', fun hdel haborted => (hwriter hdel (hstate haborted)).trans hid.symm⟩

theorem Inv.bounds_of_hasStamp (h : tm.Inv) (howner : owner ∈ tm.txnMap) (hstamp : owner.HasStamp ts) :
    owner.startTs ≤ ts ∧ ts < tm.nextTimestamp := by
  rcases hstamp with rfl | ⟨hstate, rfl⟩
  · exact ⟨le_rfl, h.start_lt owner howner⟩
  · obtain ⟨hlt, hnext, -⟩ := h.committed owner howner hstate
    exact ⟨hlt.le, hnext⟩

/-- The start timestamp of a transaction stamps no version of another one. -/
theorem Inv.eq_of_hasStamp (h : tm.Inv) (htxn : txn ∈ tm.txnMap) (howner : owner ∈ tm.txnMap)
    (hstamp : owner.HasStamp txn.startTs) : owner = txn := by
  rcases hstamp with hts | ⟨hstate, hts⟩
  · exact h.start_inj owner howner txn htxn hts
  · exact absurd hts (h.commit_ne_start owner howner txn htxn hstate)

theorem Inv.committed_of_before (h : tm.Inv) (howner : owner ∈ tm.txnMap) (hstamp : owner.HasStamp ts) (hts : ts ≠ 0)
    (hbefore : tm.isCommittedBeforeReadTs ts readTs = true) : owner.state = .committed ∧ owner.startTs < readTs := by
  have hle := (h.bounds_of_hasStamp howner hstamp).1
  unfold isCommittedBeforeReadTs at hbefore
  rw [if_neg hts] at hbefore
  split at hbefore
  · cases hbefore
  · rename_i hread
    refine ⟨?_, by omega⟩
    split at hbefore
    · cases hbefore
    · rcases hstamp with rfl | ⟨hstate, -⟩
      · split at hbefore
        · rename_i hmem
          obtain ⟨other, hother, hstate, hcommit⟩ := h.committedTxns _ hmem
          exact absurd hcommit (h.commit_ne_start other hother owner howner hstate)
        · rw [h.getTransactionByTimestamp howner] at hbefore
          simpa using hbefore
      · exact hstate

/-- What a reader looks at before it is served a version. -/
theorem Attributes.mayRead (ha : tm.Attributes ts false row) (h : tm.Inv) (htxn : txn ∈ tm.txnMap)
    (hactive : txn.isActive = true)
    (hvisible : ts = 0 ∨ ts = txn.startTs ∨ tm.isCommittedBeforeReadTs ts txn.startTs = true) :
    tm.MayRead txn row.writer := by
  by_cases hzero : ts = 0
  · exact .inl (ha.initial hzero rfl)
  obtain ⟨owner, howner, hstamp, hwriter⟩ := ha.stamped hzero
  rcases hvisible.resolve_left hzero with hown | hbefore
  · obtain rfl := h.eq_of_hasStamp htxn howner (hown ▸ hstamp)
    refine .inr (.inl (hwriter rfl fun haborted => ?_))
    simp [Transaction.isActive, haborted] at hactive
  · obtain ⟨hstate, hlt⟩ := h.committed_of_before howner hstamp hzero hbefore
    exact .inr (.inr ⟨owner, howner, (hwriter rfl (by simp [hstate])).symm, hstate, hlt⟩)

/-! ### The chains -/

section logged
variable {cur : Transaction} {old : UndoLog} {ws : List WriteRecord}

/-- The link that a step hands out leads to the new log. -/
theorem Logged.get_next (h : tm.Logged tm' cur.txnId log ws) (hids : tm.Ids) (hcur : cur ∈ tm.txnMap) :
    tm'.getUndoLogOptional (tm.nextUndoLink cur.txnId) = some log := by
  rw [h.getUndoLogOptional hids hcur rfl, nextUndoLink_eq hids hcur, if_pos rfl]

theorem Logged.get_old (h : tm.Logged tm' cur.txnId log ws) (hids : tm.Ids) (hcur : cur ∈ tm.txnMap)
    (hold : tm.getUndoLogOptional link = some old) : tm'.getUndoLogOptional link = some old := by
  rw [h.getUndoLogOptional hids hcur rfl, if_neg, hold]
  rintro rfl
  obtain ⟨owner, howner, hid, hlog⟩ := hids.getUndoLogOptional_iff.mp hold
  obtain rfl := hids.id_inj owner howner cur hcur hid
  simp at hlog

end logged

theorem logDecision_of_heeded {fh : RmFileHandle} (h : Heeded log) : (logDecision fh tm readTs log).isSome := by
  obtain ⟨hts, hsays⟩ := h
  have hvisible : tm.logVisible readTs log = true := by simp [logVisible, hts]
  unfold logDecision
  rw [if_pos hvisible]
  cases hdel : log.isDeleted with
  | true => rfl
  | false =>
    have htuple : log.tuple ≠ [] := hsays.resolve_left (by simp [hdel])
    rw [if_neg Bool.false_ne_true]
    unfold RmFileHandle.reconstructTupleFromUndoLog
    rw [if_neg (by simpa using htuple)]
    rfl

/-- The walk along a founded chain comes to a decision. -/
theorem Chained.walkHistory_isSome (h : tm.Chained) (hfounded : tm.Founded link) (fh : RmFileHandle) (startTs : ℤ) :
    (fh.walkHistory tm startTs (tm.logCount + 1) link).isSome := by
  obtain ⟨fuel, row, hwalk⟩ : ∃ fuel row, Chain.walk tm.getUndoLogOptional UndoLog.prevVersion
      (logDecision fh tm startTs) fuel link = some row := hfounded.walk fun _ => logDecision_of_heeded
  have hlong := Chain.walk_le hwalk (Nat.le_add_right fuel (tm.logCount + 1))
  rw [← walkHistory_eq] at hlong
  rw [h.walkHistory_fuel fh startTs (fuel + (tm.logCount + 1)) (by omega) (by omega), hlong]
  rfl

/-- A row from the history is that of a log which the reader may see. -/
theorem exists_of_walkHistory {fh : RmFileHandle} {startTs : ℤ} {fuel : ℕ}
    (h : fh.walkHistory tm startTs fuel link = some (some row)) : ∃ link' log,
      tm.getUndoLogOptional link' = some log ∧ tm.logVisible startTs log = true ∧ log.isDeleted = false ∧
        row.writer = log.source.writer := by
  rw [walkHistory_eq] at h
  obtain ⟨link', log, hlog, hdecision⟩ := Chain.exists_of_walk h
  refine ⟨link', log, hlog, ?_⟩
  unfold logDecision at hdecision
  split at hdecision
  · rename_i hvisible
    split at hdecision
    · cases hdecision
    · rename_i hdel
      obtain ⟨row', hrow, heq⟩ := Option.map_eq_some_iff.mp hdecision
      obtain rfl := Option.some.inj heq
      refine ⟨hvisible, by simpa using hdel, ?_⟩
      unfold RmFileHandle.reconstructTupleFromUndoLog at hrow
      split at hrow
      · cases hrow
      · obtain rfl := Option.some.inj hrow
        rfl
  · cases hdecision

theorem visible_of_logVisible {startTs : ℤ} (h : tm.logVisible startTs log = true) :
    log.ts = 0 ∨ log.ts = startTs ∨ tm.isCommittedBeforeReadTs log.ts startTs = true := by
  simp only [logVisible, Bool.or_eq_true, Bool.and_eq_true, decide_eq_true_eq] at h
  tauto

end TransactionManager

namespace Store

open TransactionManager

variable {s s' : Store} {tab t : String} {rid r : Rid} {rec_ : RmRecord} {txn cur : Transaction} {view : RecordView}
  {fh : RmFileHandle} {log : UndoLog} {link : UndoLink}

/-- A record of a slot, or one that a rollback puts there: it is no row, or it has a chain. -/
structure Version (s : Store) (rid : Rid) (rec_ : RmRecord) : Prop where
  attributes : s.txnMgr.Attributes rec_.tupleMeta.ts rec_.tupleMeta.isDeleted rec_.row
  linked : rec_.tupleMeta.ts ≠ 0 → ∃ link, s.txnMgr.versionInfo rid = some link

structure Attributed (s : Store) : Prop where
  inv : s.txnMgr.Inv
  chained : s.txnMgr.Chained
  next : 0 ≤ s.txnMgr.nextTimestamp
  starts : ∀ txn ∈ s.txnMgr.txnMap, 0 ≤ txn.startTs
  silent : ∀ txn ∈ s.txnMgr.txnMap, txn.startTs = 0 → txn.writeSet = [] ∧ txn.undoLogs = []
  slots : ∀ tab rid rec_, s.slot tab rid = some rec_ → s.Version rid rec_
  images : ∀ txn ∈ s.txnMgr.txnMap, ∀ w ∈ txn.writeSet, s.Version w.rid w.record
  logs : ∀ txn ∈ s.txnMgr.txnMap, ∀ log ∈ txn.undoLogs, s.txnMgr.Attributes log.ts log.isDeleted log.source
  heads : ∀ rid link, s.txnMgr.versionInfo rid = some link → s.txnMgr.Founded link

theorem Version.of_initial (hts : rec_.tupleMeta.ts = 0) (hwriter : rec_.row.writer = invalidTxnId) :
    s.Version rid rec_ :=
  ⟨⟨fun _ _ => hwriter, fun hne => absurd hts hne⟩, fun hne => absurd hts hne⟩

theorem Version.mono (h : s.Version rid rec_) (hgrows : s.txnMgr.Grows s'.txnMgr)
    (hlinks : ∀ link, s.txnMgr.versionInfo rid = some link → ∃ link', s'.txnMgr.versionInfo rid = some link') :
    s'.Version rid rec_ := by
  refine ⟨h.attributes.mono hgrows, fun hts => ?_⟩
  obtain ⟨link, hlink⟩ := h.linked hts
  exact hlinks link hlink

/-! ### What the invariant says to a reader -/

section

variable (h : s.Attributed)
include h

theorem Attributed.hasTupleMeta (hv : s.Version rid rec_) : s.txnMgr.hasTupleMeta rec_.tupleMeta = true := by
  by_cases hzero : rec_.tupleMeta.ts = 0
  · simp [TransactionManager.hasTupleMeta, hzero]
  · obtain ⟨owner, howner, hstamp, -⟩ := hv.attributes.stamped hzero
    obtain ⟨hle, hlt⟩ := h.inv.bounds_of_hasStamp howner hstamp
    exact hasTupleMeta_of_lt ((h.starts owner howner).trans hle) hlt

theorem Attributed.effectiveMeta (hv : s.Version rid rec_) : s.txnMgr.effectiveMeta rec_.tupleMeta = rec_.tupleMeta := if_pos (h.hasTupleMeta hv)

/-- Where the record in the slot is not served, the history decides. -/
theorem Attributed.history_decides_walk (hfh : s.fhs tab = some fh) (hrid : 0 ≤ rid.slotNo)
    (hpage : fh.hasPage rid.pageNo) {startTs : ℤ} (hplace : ¬fh.readsInPlace s.txnMgr startTs rid) :
    ∃ link row, s.txnMgr.getVersionLink rid = some link ∧
      fh.walkHistory s.txnMgr startTs (s.txnMgr.logCount + 1) link = some row := by
  have hpos := RmFileHandle.pos_of_not_readsInPlace hplace
  obtain ⟨link, hlink⟩ := (h.slots tab rid _ (slot_eq hfh)).linked (by omega)
  have hget : s.txnMgr.getVersionLink rid = some link := by
    have hpageNo := hpage.1
    simp only [rmFirstRecordPage] at hpageNo
    unfold TransactionManager.getVersionLink
    rw [if_neg (by omega), hlink]
  obtain ⟨row, hrow⟩ := Option.isSome_iff_exists.mp (h.chained.walkHistory_isSome (h.heads rid link hlink) fh startTs)
  exact ⟨link, row, hget, hrow⟩

/-- The current record, an undo log, and the record once more: none of the three ways leads to a row that the reader may not
be served. -/
theorem Attributed.mayRead (htxn : txn ∈ s.txnMgr.txnMap) (hactive : txn.isActive = true)
    (hread : s.getRecordMvcc tab txn.startTs rid = .ok (some view)) : s.txnMgr.MayRead txn view.row.writer := by
  unfold getRecordMvcc at hread
  cases hfh : s.fhs tab with
  | none =>
    rw [hfh] at hread
    cases hread
  | some fh =>
    rw [hfh] at hread
    dsimp only at hread
    obtain ⟨hrid, hpage⟩ := RmFileHandle.getRecordMvcc_page hread
    have hversion := h.slots tab rid _ (slot_eq hfh)
    rw [RmFileHandle.getRecordMvcc_eq hrid hpage] at hread
    split at hread
    · rename_i hplace
      unfold RmFileHandle.readsInPlace at hplace
      rw [h.effectiveMeta hversion] at hplace hread
      split at hread
      · cases hread
      · rename_i hdel
        obtain rfl := Option.some.inj (Except.ok.inj hread)
        have hattributes := hversion.attributes
        rw [Bool.not_eq_true] at hdel
        rw [hdel] at hattributes
        exact hattributes.mayRead h.inv htxn hactive hplace
    · rename_i hplace
      split at hread
      · cases hread
      · obtain ⟨link, row, hlink, hwalk⟩ := h.history_decides_walk hfh hrid hpage hplace
        have hview := Except.ok.inj hread
        simp only [RmFileHandle.getVisibleVersionFromHistory, hlink, hwalk] at hview
        obtain ⟨row, rfl, rfl⟩ := Option.map_eq_some_iff.mp hview
        obtain ⟨link', log, hlog, hvisible, hdel, hwriter⟩ := exists_of_walkHistory hwalk
        obtain ⟨owner, howner, -, hmem⟩ := h.chained.ids.getUndoLogOptional_iff.mp hlog
        have hattributes := h.logs owner howner log (List.mem_of_getElem? hmem)
        rw [hdel] at hattributes
        change s.txnMgr.MayRead txn row.writer
        rw [hwriter]
        exact hattributes.mayRead h.inv htxn hactive (visible_of_logVisible hvisible)

/-! ### Steps that append no log -/

/-- Transactions end or take writes back, new ones begin, and slots are filled with what was there before. -/
theorem Attributed.quiet (hinv : s'.txnMgr.Inv) (hchained : s'.txnMgr.Chained) (hgrows : s.txnMgr.Grows s'.txnMgr)
    (hkeeps : ∀ old ∈ s.txnMgr.txnMap, ∃ new ∈ s'.txnMgr.txnMap, new.txnId = old.txnId ∧ new.undoLogs = old.undoLogs)
    (hmem : ∀ new ∈ s'.txnMgr.txnMap, new.writeSet = [] ∧ new.undoLogs = [] ∨ ∃ old ∈ s.txnMgr.txnMap, new.startTs = old.startTs ∧ new.undoLogs = old.undoLogs ∧ ∀ w ∈ new.writeSet, w ∈ old.writeSet)
    (hversion : s'.txnMgr.versionInfo = s.txnMgr.versionInfo)
    (hslots : ∀ t r rec_, s'.slot t r = some rec_ → rec_.tupleMeta.ts = 0 ∧ rec_.row.writer = invalidTxnId ∨ s.Version r rec_) :
      s'.Attributed := by
  have hmono : ∀ {r rec_}, s.Version r rec_ → s'.Version r rec_ := fun hv =>
    hv.mono hgrows fun link hlink => ⟨link, by rw [hversion, hlink]⟩
  have hget : ∀ link log, s.txnMgr.getUndoLogOptional link = some log →
      s'.txnMgr.getUndoLogOptional link = some log := by
    intro link log hlog
    obtain ⟨old, hold, hid, hlog⟩ := h.inv.toIds.getUndoLogOptional_iff.mp hlog
    obtain ⟨new, hnew, hid', hlogs⟩ := hkeeps old hold
    exact hinv.toIds.getUndoLogOptional_iff.mpr ⟨new, hnew, hid'.trans hid, by rw [hlogs, hlog]⟩
  refine ⟨hinv, hchained, h.next.trans hgrows.nextTimestamp, fun new hnew => ?_, fun new hnew hzero => ?_,
    fun t r rec_ hslot => ?_, fun new hnew w hw => ?_, fun new hnew log hlog => ?_, fun r link hlink => ?_⟩
  · rcases hgrows.old_or_new new hnew with ⟨old, hold, -, hstart⟩ | ⟨-, hlate⟩
    · exact hstart ▸ h.starts old hold
    · exact h.next.trans hlate
  · rcases hmem new hnew with hnil | ⟨old, hold, hstart, hlogs, hws⟩
    · exact hnil
    · obtain ⟨hwsNil, hlogsNil⟩ := h.silent old hold (hstart.symm.trans hzero)
      rw [hwsNil] at hws
      exact ⟨List.eq_nil_iff_forall_not_mem.mpr fun w hw => List.not_mem_nil (hws w hw), hlogs.trans hlogsNil⟩
  · rcases hslots t r rec_ hslot with ⟨hts, hwriter⟩ | hv
    · exact .of_initial hts hwriter
    · exact hmono hv
  · rcases hmem new hnew with ⟨hnil, -⟩ | ⟨old, hold, -, -, hws⟩
    · rw [hnil] at hw
      cases hw
    · exact hmono (h.images old hold w (hws w hw))
  · rcases hmem new hnew with ⟨-, hnil⟩ | ⟨old, hold, -, hlogs, -⟩
    · rw [hnil] at hlog
      cases hlog
    · exact (h.logs old hold log (hlogs ▸ hlog)).mono hgrows
  · rw [hversion] at hlink
    exact (h.heads r link hlink).mono fun l log hlog => ⟨log, hget l log hlog, rfl, id⟩

/-- The tables change, and the transactions do not. -/
theorem Attributed.setTable {file : Option RmFileHandle}
    (hfile : ∀ fh ∈ file, ∀ r, (fh.record r).tupleMeta.ts = 0 ∧ (fh.record r).row.writer = invalidTxnId) :
    (s.setTable tab file).Attributed := by
  refine h.quiet h.inv h.chained (.refl _) (fun old hold => ⟨old, hold, rfl, rfl⟩)
    (fun new hnew => .inr ⟨new, hnew, rfl, rfl, fun _ hw => hw⟩) rfl fun t r rec_ hslot => ?_
  by_cases ht : t = tab
  · subst ht
    simp only [Store.slot, Store.setTable, Function.update_self] at hslot
    obtain ⟨fh, hfh, rfl⟩ := Option.map_eq_some_iff.mp hslot
    exact .inl (hfile fh hfh r)
  · simp only [Store.slot, Store.setTable, Function.update_of_ne ht] at hslot
    exact .inr (h.slots t r rec_ hslot)

theorem Attributed.begin : s.begin.Attributed := by
  refine h.quiet h.inv.begin h.chained.begin (grows_begin _)
    (fun old hold => ⟨old, mem_begin.mpr (.inl hold), rfl, rfl⟩) (fun new hnew => ?_) rfl fun t r rec_ hslot =>
      .inr (h.slots t r rec_ hslot)
  rcases mem_begin.mp hnew with hnew | rfl
  · exact .inr ⟨new, hnew, rfl, rfl, fun _ hw => hw⟩
  · exact .inl ⟨rfl, rfl⟩

theorem Attributed.markAborted (htxn : txn ∈ s.txnMgr.txnMap) (hactive : txn.isActive = true) :
    (s.markAborted txn).Attributed := by
  refine h.quiet (h.inv.markAborted htxn rfl rfl hactive) h.chained.markAborted (h.inv.grows_markAborted htxn hactive)
    (fun old hold => ?_) (fun new hnew => ?_) rfl fun t r rec_ hslot => .inr (h.slots t r rec_ hslot)
  · by_cases hid : old.txnId = txn.txnId
    · exact ⟨_, markAborted_mem_self hold hid, rfl, rfl⟩
    · exact ⟨old, markAborted_mem_of_ne hold hid, rfl, rfl⟩
  · obtain ⟨old, hold, ⟨-, rfl⟩ | ⟨-, rfl⟩⟩ := mem_markAborted hnew
    · exact .inr ⟨new, hold, rfl, rfl, fun _ hw => hw⟩
    · exact .inr ⟨old, hold, rfl, rfl, fun _ hw => hw⟩

omit h in
/-- A rollback puts an image into the slot, or empties it, or does not reach it. -/
theorem undoWrite_record (w : WriteRecord) (fh : RmFileHandle) (r : Rid) :
    (undoWrite w fh).record r = fh.record r ∨ r = w.rid ∧
      ((undoWrite w fh).record r = w.record ∨ (undoWrite w fh).record r = zeroRecord fh.recordSize) := by
  by_cases hr : r = w.rid
  · subst hr
    unfold undoWrite
    cases w.wtype with
    | insertTuple =>
      cases hocc : fh.isRecord w.rid with
      | true =>
        refine .inr ⟨rfl, .inr ?_⟩
        simp only [(RmFileHandle.deleteRecord_wrote hocc).record, Function.update_self]
      | false => exact .inl (by simp [RmFileHandle.deleteRecord, hocc])
    | deleteTuple =>
      by_cases hpage : fh.createNewPageHandle.2.hasPage w.rid.pageNo
      · refine .inr ⟨rfl, .inl ?_⟩
        simp only [(RmFileHandle.insertRecordAt_wrote hpage).record, Function.update_self]
      · refine .inl ?_
        simp only [RmFileHandle.insertRecordAt, hpage, if_false, RmFileHandle.createNewPageHandle_same.record]
    | updateTuple =>
      by_cases hpage : fh.hasPage w.rid.pageNo
      · refine .inr ⟨rfl, .inl ?_⟩
        simp only [(RmFileHandle.updateRecord_wrote hpage).record, Function.update_self]
      · refine .inl ?_
        simp only [RmFileHandle.updateRecord, hpage, if_false]
  · exact .inl (undoWrite_ne hr).1

theorem Attributed.rollbackOne {txnId : ℤ} (hroll : s.rollbackOne txnId = some s') : s'.Attributed := by
  have hinert := rollbackOne_inert hroll
  obtain ⟨cur, w, fh, hcur, hw, hfh, htm, hfhs, -⟩ := rollbackOne_eq hroll
  have hmem := (mem_of_getTransaction hcur).1
  have hchained : s'.txnMgr.Chained := by
    rw [htm]
    exact h.chained.writeSet (f := List.dropLast)
  refine h.quiet (hinert.inv h.inv) hchained hinert.grows (fun old hold => ?_) (fun new hnew => ?_)
    (by rw [htm]; rfl) fun t r rec_ hslot => ?_
  · rw [htm]
    by_cases hid : old.txnId = txnId
    · exact ⟨_, List.mem_map.mpr ⟨old, hold, if_pos hid⟩, rfl, rfl⟩
    · exact ⟨old, List.mem_map.mpr ⟨old, hold, if_neg hid⟩, rfl, rfl⟩
  · rw [htm] at hnew
    obtain ⟨old, hold, rfl⟩ := mem_modifyTxn hnew
    refine .inr ⟨old, hold, ?_⟩
    split
    · exact ⟨rfl, rfl, fun _ hw => List.dropLast_subset _ hw⟩
    · exact ⟨rfl, rfl, fun _ hw => hw⟩
  · by_cases ht : t = w.tabName
    · subst ht
      rw [Store.slot, hfhs, Function.update_self] at hslot
      obtain rfl : (undoWrite w fh).record r = rec_ := Option.some.inj hslot
      rcases undoWrite_record w fh r with hsame | ⟨rfl, himage | hzero⟩
      · rw [hsame]
        exact .inr (h.slots _ r _ (slot_eq hfh))
      · rw [himage]
        exact .inr (h.images cur hmem w (List.mem_of_getLast? hw))
      · rw [hzero]
        exact .inl ⟨rfl, rfl⟩
    · rw [Store.slot, hfhs, Function.update_of_ne ht] at hslot
      exact .inr (h.slots t r rec_ hslot)

theorem Attributed.rollbackAll {txnId : ℤ} {n : ℕ} (hroll : Store.rollbackAll txnId n s = some s') : s'.Attributed := by
  induction n generalizing s with
  | zero =>
    cases hroll
    exact h
  | succ n ih =>
    obtain ⟨mid, hone, hall⟩ := Option.bind_eq_some_iff.mp hroll
    exact ih (h.rollbackOne hone) hall

/-! ### Commit -/

section commit
variable {ts : ℤ} {isDeleted : Bool} {row : RowData}

/-- A version with the start timestamp of the transaction gets its commit timestamp. -/
theorem Attributed.attributes_commit (htxn : txn ∈ s.txnMgr.txnMap) (hactive : txn.isActive = true)
    (hstart : txn.startTs ≠ 0) (ha : s.txnMgr.Attributes txn.startTs isDeleted row) :
    (s.txnMgr.commitTxn txn).Attributes s.txnMgr.nextTimestamp isDeleted row := by
  have hlt := h.inv.start_lt txn htxn
  have hnonneg := h.starts txn htxn
  refine ⟨fun hzero => by omega, fun _ => ⟨_, commitTxn_mem_self htxn rfl, .inr ⟨rfl, rfl⟩, fun hdel _ => ?_⟩⟩
  obtain ⟨owner, howner, hstamp, hwriter⟩ := ha.stamped hstart
  obtain rfl := h.inv.eq_of_hasStamp htxn howner hstamp
  exact hwriter hdel fun haborted => by simp [Transaction.isActive, haborted] at hactive

/-- Behind a link is the same log after a commit, but for its timestamp. -/
theorem Attributed.getUndoLogOptional_commit (htxn : txn ∈ s.txnMgr.txnMap)
    (hlog : s.txnMgr.getUndoLogOptional link = some log) : ∃ new,
      (s.txnMgr.commitTxn txn).getUndoLogOptional link = some new ∧ new.prevVersion = log.prevVersion ∧
        (Heeded log → Heeded new) := by
  have hids := h.inv.toIds
  obtain ⟨owner, howner, hid, hlog⟩ := hids.getUndoLogOptional_iff.mp hlog
  by_cases hown : owner.txnId = txn.txnId
  · obtain rfl := hids.id_inj owner howner txn htxn hown
    have hnew : (owner.committedAt s.txnMgr.nextTimestamp).undoLogs[link.prevLogIdx]? =
        some (if log.ts = owner.startTs then { log with ts := s.txnMgr.nextTimestamp } else log) := by
      simp only [Transaction.committedAt, List.getElem?_map, hlog, Option.map_some]
    refine ⟨_, hids.commitTxn.getUndoLogOptional_iff.mpr ⟨_, commitTxn_mem_self howner rfl, hid, hnew⟩, ?_, fun hheeded => ?_⟩
    · split <;> rfl
    · have hne : log.ts ≠ owner.startTs := by
        intro hts
        rw [hheeded.1] at hts
        rw [(h.silent owner howner hts.symm).2] at hlog
        cases hlog
      rw [if_neg hne]
      exact hheeded
  · exact ⟨log, hids.commitTxn.getUndoLogOptional_iff.mpr
      ⟨owner, commitTxn_mem_of_ne howner hown, hid, hlog⟩, rfl, id⟩

theorem Attributed.commit (htxn : txn ∈ s.txnMgr.txnMap) (hactive : txn.isActive = true) : (s.commit txn).Attributed := by
  have hgrows := h.inv.grows_commit htxn hactive
  have hversion : (s.commit txn).txnMgr.versionInfo = s.txnMgr.versionInfo := by
    rw [commit_txnMgr]
    rfl
  have hmono : ∀ {r rec_}, s.Version r rec_ → (s.commit txn).Version r rec_ := fun hv =>
    hv.mono (commit_txnMgr ▸ hgrows) fun link hlink => ⟨link, by rw [hversion, hlink]⟩
  have hrest : (s.commit txn).txnMgr.Inv ∧ (s.commit txn).txnMgr.Chained ∧ 0 ≤ (s.commit txn).txnMgr.nextTimestamp := by
    rw [commit_txnMgr]
    exact ⟨h.inv.commitTxn htxn rfl hactive, h.chained.commitTxn, h.next.trans hgrows.nextTimestamp⟩
  obtain ⟨hinv, hchained, hnext⟩ := hrest
  have hmem : ∀ {new}, new ∈ (s.commit txn).txnMgr.txnMap → new ∈ s.txnMgr.txnMap ∧ new.txnId ≠ txn.txnId ∨
      new = txn.committedAt s.txnMgr.nextTimestamp := by
    intro new hnew
    rw [commit_txnMgr] at hnew
    obtain ⟨old, hold, ⟨hne, rfl⟩ | ⟨hid, rfl⟩⟩ := mem_commitTxn hnew
    · exact .inl ⟨hold, hne⟩
    · exact .inr (by rw [h.inv.id_inj old hold txn htxn hid])
  refine ⟨hinv, hchained, hnext, fun new hnew => ?_, fun new hnew hzero => ?_, fun t r rec_ hslot => ?_,
    fun new hnew w hw => ?_, fun new hnew log hlog => ?_, fun r link hlink => ?_⟩
  · rcases hmem hnew with ⟨hold, -⟩ | rfl
    · exact h.starts new hold
    · exact h.starts txn htxn
  · rcases hmem hnew with ⟨hold, -⟩ | rfl
    · exact h.silent new hold hzero
    · obtain ⟨hws, hlogs⟩ := h.silent txn htxn hzero
      refine ⟨hws, ?_⟩
      simp only [Transaction.committedAt, hlogs, List.map_nil]
  · rcases commit_slot s txn t r with ⟨hsame, -⟩ | ⟨old, hold, hrestamps, hnew⟩
    · exact hmono (h.slots t r rec_ (hsame ▸ hslot))
    · obtain rfl := Option.some.inj (hnew.symm.trans hslot)
      obtain ⟨⟨w, hw, -⟩, -, hts, -⟩ := hrestamps
      have hstart : txn.startTs ≠ 0 := by
        intro hzero
        rw [(h.silent txn htxn hzero).1] at hw
        cases hw
      have hv := h.slots t r old hold
      obtain ⟨link, hlink⟩ := hv.linked (hts ▸ hstart)
      refine ⟨?_, fun _ => ⟨link, by rw [hversion, hlink]⟩⟩
      rw [commit_txnMgr]
      exact h.attributes_commit htxn hactive hstart (hts ▸ hv.attributes)
  · rcases hmem hnew with ⟨hold, -⟩ | rfl
    · exact hmono (h.images new hold w hw)
    · exact hmono (h.images txn htxn w hw)
  · rw [commit_txnMgr]
    rcases hmem hnew with ⟨hold, -⟩ | rfl
    · exact (h.logs new hold log hlog).mono hgrows
    · obtain ⟨old, hold, rfl⟩ := List.mem_map.mp hlog
      have ha := h.logs txn htxn old hold
      split
      · rename_i hts
        rw [hts] at ha
        refine h.attributes_commit htxn hactive (fun hzero => ?_) ha
        rw [(h.silent txn htxn hzero).2] at hold
        cases hold
      · exact ha.mono hgrows
  · rw [hversion] at hlink
    rw [commit_txnMgr]
    have hfounded : Chain.Holds s.txnMgr.getUndoLogOptional UndoLog.prevVersion Heeded link := h.heads r link hlink
    exact hfounded.mono fun l log hlog => h.getUndoLogOptional_commit htxn hlog

end commit

/-! ### Statements -/

/-- A step that appends an undo log. -/
theorem Attributed.logged {ws : List WriteRecord} (hcur : cur ∈ s.txnMgr.txnMap) (hpos : 1 ≤ cur.startTs)
    (hlogged : s.txnMgr.Logged s'.txnMgr cur.txnId log ws) (hchained : s'.txnMgr.Chained)
    (hlog : s.txnMgr.Attributes log.ts log.isDeleted log.source) (hws : ∀ w ∈ ws, s.Version w.rid w.record)
    (hlinks : ∀ r link, s.txnMgr.versionInfo r = some link → ∃ link', s'.txnMgr.versionInfo r = some link')
    (hversion : ∀ r link, s'.txnMgr.versionInfo r = some link → s.txnMgr.versionInfo r = some link ∨ link = s.txnMgr.nextUndoLink cur.txnId ∧ (Heeded log ∨ s.txnMgr.Founded log.prevVersion))
    (hslots : ∀ t r rec_, s'.slot t r = some rec_ → s.Version r rec_ ∨ s'.Version r rec_) : s'.Attributed := by
  have hgrows := hlogged.inert.grows
  have hids := h.inv.toIds
  have hmono : ∀ {r rec_}, s.Version r rec_ → s'.Version r rec_ := fun hv => hv.mono hgrows (hlinks _)
  have hfounded : ∀ {l}, s.txnMgr.Founded l → s'.txnMgr.Founded l := fun hl =>
    hl.mono fun l old hold => ⟨old, hlogged.get_old hids hcur hold, rfl, id⟩
  refine ⟨hlogged.inert.inv h.inv, hchained, hlogged.inert.nextTimestamp.symm ▸ h.next, fun new hnew => ?_,
    fun new hnew hzero => ?_, fun t r rec_ hslot => ?_, fun new hnew w hw => ?_, fun new hnew log' hlog' => ?_,
    fun r link hlink => ?_⟩
  · obtain ⟨old, hold, -, hstart, -⟩ := hlogged.mem_fields hnew
    exact hstart ▸ h.starts old hold
  · obtain ⟨old, hold, ⟨-, rfl⟩ | ⟨hid, rfl⟩⟩ := hlogged.mem hnew
    · exact h.silent new hold hzero
    · obtain rfl := hids.id_inj old hold cur hcur hid
      have hstart : old.startTs = 0 := hzero
      omega
  · rcases hslots t r rec_ hslot with hv | hv
    · exact hmono hv
    · exact hv
  · obtain ⟨old, hold, -, -, -, hwrites⟩ := hlogged.mem_fields hnew
    rw [hwrites] at hw
    rcases List.mem_append.mp hw with hw | hw
    · exact hmono (h.images old hold w hw)
    · split at hw
      · exact hmono (hws w hw)
      · cases hw
  · obtain ⟨old, hold, ⟨-, rfl⟩ | ⟨-, rfl⟩⟩ := hlogged.mem hnew
    · exact (h.logs new hold log' hlog').mono hgrows
    · rcases List.mem_append.mp hlog' with hlog' | hlog'
      · exact (h.logs old hold log' hlog').mono hgrows
      · rw [List.mem_singleton.mp hlog']
        exact hlog.mono hgrows
  · rcases hversion r link hlink with hold | ⟨rfl, hsays⟩
    · exact hfounded (h.heads r link hold)
    · have hnew := hlogged.get_next hids hcur
      rcases hsays with hheeded | hprev
      · exact .here hnew hheeded
      · exact .there hnew (hfounded hprev)

section stmtStep
variable {tabs : String → Option TabMeta} {target : Rid → Prop} {inserting : Prop} {s₀ : Store} {old : RecordView}

/-- A writer has found the record in the slot, unless that is of a transaction that has aborted. -/
theorem Attributed.found (hmay : MayOverwrite s txn tab fh rid old) :
    (fh.record rid).tupleMeta.isDeleted = false ∧ old.row = (fh.record rid).row ∨
      (fh.record rid).tupleMeta.ts ≠ 0 ∧
        ∃ owner ∈ s.txnMgr.txnMap, owner.startTs = (fh.record rid).tupleMeta.ts ∧ owner.state = .aborted := by
  obtain ⟨hrid, hpage⟩ := RmFileHandle.getRecordMvcc_page hmay.visible
  have hv := h.slots tab rid _ (slot_eq hmay.file)
  have hmeta := h.hasTupleMeta hv
  have hread := hmay.visible
  rw [RmFileHandle.getRecordMvcc_eq hrid hpage, h.effectiveMeta hv] at hread
  split at hread
  · split at hread
    · cases hread
    · rename_i hdel
      obtain rfl := Option.some.inj (Except.ok.inj hread)
      exact .inl ⟨by simpa using hdel, rfl⟩
  · rename_i hplace
    unfold RmFileHandle.readsInPlace at hplace
    rw [h.effectiveMeta hv] at hplace
    obtain ⟨hzero, hhidden⟩ := not_or.mp hplace
    obtain ⟨hown, hbefore⟩ := not_or.mp hhidden
    obtain ⟨owner, howner, hstamp, -⟩ := hv.attributes.stamped hzero
    obtain ⟨cur, hcur, hid, hstart, -⟩ := hmay.runs.mem
    have hcommit_ne : ∀ other ∈ s.txnMgr.txnMap, other.state = .committed → other.commitTs ≠ txn.startTs :=
      fun other hother hstate => hstart ▸ h.inv.commit_ne_start other hother cur hcur hstate
    rcases h.inv.noConflict_cases hpage hmeta hcur hid hstart hmay.noConflict with
      hts | hts | haborted | ⟨other, hother, hts, hstate, hle⟩ | ⟨hnone, hle⟩
    · exact absurd hts hzero
    · exact absurd hts hown
    · exact .inr ⟨hzero, haborted⟩
    · have hseen := (h.inv.committedBefore hother hstate (lt_of_le_of_ne hle (hcommit_ne other hother hstate))).1
      rw [hts] at hseen
      exact absurd hseen hbefore
    · rcases hstamp with hts | ⟨hstate, hts⟩
      · exact absurd hts (hnone owner howner)
      · rw [← hts] at hle hbefore
        have hlt := lt_of_le_of_ne hle (hcommit_ne owner howner hstate)
        exact absurd (h.inv.committedBefore howner hstate hlt).2 hbefore

theorem Attributed.attributes_overwritten (hmay : MayOverwrite s txn tab fh rid old) :
    s.txnMgr.Attributes (fh.record rid).tupleMeta.ts false old.row := by
  have ha := (h.slots tab rid _ (slot_eq hmay.file)).attributes
  rcases h.found hmay with ⟨hdel, hrow⟩ | ⟨hzero, owner, howner, hstart, hstate⟩
  · rw [hrow, ← hdel]
    exact ha
  · exact ⟨fun hts => absurd hts hzero, fun _ => ⟨owner, howner, .inl hstart, fun _ hne => absurd hstate hne⟩⟩

/-- The log of a version with a timestamp goes in front of the chain of the slot. -/
theorem Attributed.prev_overwritten {tabMeta : TabMeta} {wtype : WType} (hmay : MayOverwrite s txn tab fh rid old)
    (hwrite : Overwrite tabMeta s txn tab (fh.record rid) rid old wtype log rec_)
    (hts : (fh.record rid).tupleMeta.ts ≠ 0) : s.txnMgr.versionInfo rid = some log.prevVersion := by
  obtain ⟨link, hlink⟩ := (h.slots tab rid _ (slot_eq hmay.file)).linked hts
  have hvalid : link.isValid = true := by
    obtain ⟨log, hlog⟩ := (h.heads rid link hlink).exists_get
    unfold UndoLink.isValid
    rw [decide_eq_true_eq]
    intro hinvalid
    simp [TransactionManager.getUndoLogOptional, TransactionManager.getTransaction, hinvalid] at hlog
  cases hwrite with
  | update data =>
    have hundo : s.txnMgr.getUndoLink rid = some link := by
      unfold TransactionManager.getUndoLink
      rw [hlink, Option.filter_some, if_pos hvalid]
    simp only [updateLog, hundo, Option.getD_some, hlink]
  | delete => simp only [deleteLog, versionLink_eq hmay, hlink, Option.getD_some]

/-- The log of an overwritten version is one that every reader heeds, or the chain behind it leads to one. -/
theorem Attributed.founded_overwritten {tabMeta : TabMeta} {wtype : WType} (hmay : MayOverwrite s txn tab fh rid old)
    (hwrite : Overwrite tabMeta s txn tab (fh.record rid) rid old wtype log rec_) :
    Heeded log ∨ s.txnMgr.Founded log.prevVersion := by
  by_cases hzero : (fh.record rid).tupleMeta.ts = 0
  · have hcols : ∀ f : ColMeta → Value, tabMeta.cols.map f ≠ [] := fun f hnil =>
      tabMeta.cols_ne_nil (List.map_eq_nil_iff.mp hnil)
    cases hwrite with
    | update data => exact .inl ⟨hzero, .inr (hcols _)⟩
    | delete => exact .inl ⟨hzero, .inr (hcols _)⟩
  · exact .inr (h.heads rid _ (h.prev_overwritten hmay hwrite hzero))

theorem Attributed.stmtStep (hstep : StmtStep tabs txn tab target inserting s₀ s s') (hpos : 1 ≤ txn.startTs) :
      s'.Attributed := by
  obtain ⟨cur, hcur, hid, hstart, -⟩ := hstep.runs.1.mem
  have hchained := hstep.chained h.chained
  have hpos' : 1 ≤ cur.startTs := hstart ▸ hpos
  have hids := h.inv.toIds
  -- An INSERT logs that there was no row.
  have hinsert : ∀ {n row}, s.txnMgr.Attributes (insertLog n row).ts (insertLog n row).isDeleted (insertLog n row).source ∧
      Heeded (insertLog n row) := by
    intro n row
    refine ⟨⟨fun _ hdel => ?_, fun hne => absurd rfl hne⟩, rfl, .inl rfl⟩
    cases hdel
  have hlinks : ∀ {r' versionInfo}, s'.txnMgr.versionInfo = Function.update s.txnMgr.versionInfo r' (some versionInfo) →
      ∀ r link, s.txnMgr.versionInfo r = some link → ∃ link', s'.txnMgr.versionInfo r = some link' := by
    intro r' versionInfo hversion r link hlink
    rw [hversion, Function.update_apply]
    split
    · exact ⟨_, rfl⟩
    · exact ⟨link, hlink⟩
  have hheads : ∀ {r' log}, s'.txnMgr.versionInfo =
      Function.update s.txnMgr.versionInfo r' (some (s.txnMgr.nextUndoLink txn.txnId)) →
      Heeded log ∨ s.txnMgr.Founded log.prevVersion → ∀ r link, s'.txnMgr.versionInfo r = some link →
      s.txnMgr.versionInfo r = some link ∨
        link = s.txnMgr.nextUndoLink cur.txnId ∧ (Heeded log ∨ s.txnMgr.Founded log.prevVersion) := by
    intro r' log hversion hsays r link hlink
    rw [hversion, Function.update_apply] at hlink
    split at hlink
    · exact .inr ⟨by rw [hid, Option.some.inj hlink], hsays⟩
    · exact .inl hlink
  -- What a transaction writes carries its start timestamp.
  have hput : ∀ {r new used log ws}, s.Put s' tab r new used → s.txnMgr.Logged s'.txnMgr cur.txnId log ws →
      s'.txnMgr.versionInfo = Function.update s.txnMgr.versionInfo r (some (s.txnMgr.nextUndoLink txn.txnId)) →
      (new.tupleMeta.ts = 0 ∧ new.row.writer = invalidTxnId ∨
        new.tupleMeta.ts = txn.startTs ∧ (new.tupleMeta.isDeleted = false → new.row.writer = txn.txnId)) →
      ∀ t r' rec_, s'.slot t r' = some rec_ → s.Version r' rec_ ∨ s'.Version r' rec_ := by
    intro r new used log ws hput hlogged hversion hnew t r' rec_ hslot
    by_cases hat : t = tab ∧ r' = r
    · obtain ⟨rfl, rfl⟩ := hat
      obtain rfl := Option.some.inj (hput.slot_self.symm.trans hslot)
      refine .inr ?_
      rcases hnew with ⟨hzero, hwriter⟩ | ⟨hts, hwriter⟩
      · exact .of_initial hzero hwriter
      · obtain ⟨cur', hcur', hid', hstart', -⟩ := hlogged.inert.mem' hcur
        refine ⟨⟨fun hzero => by omega, fun _ => ⟨cur', hcur', .inl ?_, fun hdel _ => ?_⟩⟩, fun _ => ?_⟩
        · rw [hstart', hstart, hts]
        · rw [hwriter hdel, hid', hid]
        · rw [hversion, Function.update_self]
          exact ⟨_, rfl⟩
    · exact .inl (h.slots t r' rec_ (hput.slot_ne hat ▸ hslot))
  cases hstep.outcome with
  | notInserted runs logged slots history version =>
    rw [← hid] at logged
    refine h.logged hcur hpos' logged hchained hinsert.1 (fun _ hw => by cases hw) (hlinks version)
      (hheads version (.inl hinsert.2)) fun t r rec_ hslot => .inl (h.slots t r rec_ (slots.slot t r ▸ hslot))
  | inserted inserting first runs file target slotNo free logged put history version =>
    rw [← hid] at logged
    exact h.logged hcur hpos' logged hchained hinsert.1 (fun _ hw => by cases hw) (hlinks version)
      (hheads version (.inl hinsert.2)) (hput put logged version (.inr ⟨rfl, fun _ => rfl⟩))
  | refused inserting first runs file target slotNo free logged put history version =>
    rw [← hid] at logged
    exact h.logged hcur hpos' logged hchained hinsert.1 (fun _ hw => by cases hw) (hlinks version)
      (hheads version (.inl hinsert.2)) (hput put logged version (.inl ⟨rfl, rfl⟩))
  | logged may htab target logged slots history version =>
    rw [← hid] at logged
    have ha := h.attributes_overwritten may
    refine h.logged hcur hpos' logged hchained ⟨fun hzero _ => ha.initial hzero rfl, fun hne => ?_⟩
      (fun _ hw => by cases hw) (fun r link hlink => ⟨link, by rw [version, hlink]⟩)
      (fun r link hlink => .inl (version ▸ hlink)) fun t r rec_ hslot => .inl (h.slots t r rec_ (slots.slot t r ▸ hslot))
    obtain ⟨owner, howner, hstamp, hwriter⟩ := ha.stamped hne
    exact ⟨owner, howner, hstamp, fun _ => hwriter rfl⟩
  | overwritten may htab target write logged put history version =>
    rw [← hid] at logged
    have ha := h.attributes_overwritten may
    have hlog := Succeeds.of_overwrite may write
    refine h.logged hcur hpos' logged hchained ?_ (fun w hw => ?_) (hlinks version)
      (hheads version (h.founded_overwritten may write)) (hput put logged version (.inr ?_))
    · rw [hlog.ts, hlog.source]
      refine ⟨fun hzero _ => ha.initial hzero rfl, fun hne => ?_⟩
      obtain ⟨owner, howner, hstamp, hwriter⟩ := ha.stamped hne
      exact ⟨owner, howner, hstamp, fun _ => hwriter rfl⟩
    · rw [List.mem_singleton.mp hw]
      exact h.slots tab _ _ (slot_eq may.file)
    · cases write with
      | update data => exact ⟨rfl, fun _ => rfl⟩
      | delete => exact ⟨rfl, fun hdel => by cases hdel⟩

theorem Attributed.stmtSteps (hsteps : StmtSteps tabs txn tab target inserting s₀ s s') (hpos : 1 ≤ txn.startTs) :
      s'.Attributed := by
  induction hsteps with
  | refl => exact h
  | tail _ hstep ih => exact ih.stmtStep hstep hpos

end stmtStep

end

/-! ### Runs -/

theorem Attributed.step {db db' : Database} {action : Action} (h : db.store.Attributed) (hallowed : WritesStamped db action)
    (hstep : db.step action = some db') : db'.store.Attributed := by
  cases action with
  | begin =>
    cases hstep
    exact h.begin
  | stmt txnId stmt =>
    obtain ⟨txn, htxn, -, hsteps⟩ := step_stmt hstep
    exact h.stmtSteps hsteps (hallowed txn htxn)
  | commit txnId =>
    obtain ⟨txn, htxn, rfl⟩ := step_commit hstep
    obtain ⟨hmem, -, hactive⟩ := activeTxn_mem htxn
    exact h.commit hmem hactive
  | abort txnId =>
    obtain ⟨txn, store, htxn, habort, rfl⟩ := step_abort hstep
    obtain ⟨hmem, -, hactive⟩ := activeTxn_mem htxn
    exact (h.markAborted hmem hactive).rollbackAll habort
  | markAborted txnId =>
    obtain ⟨txn, htxn, rfl⟩ := step_markAborted hstep
    obtain ⟨hmem, -, hactive⟩ := activeTxn_mem htxn
    exact h.markAborted hmem hactive
  | rollbackOne txnId =>
    obtain ⟨txn, store, -, -, hroll, rfl⟩ := step_rollbackOne hstep
    exact h.rollbackOne hroll
  | garbageCollection => exact hallowed.elim
  | createTable tab colDefs =>
    rcases step_createTable hstep with rfl | ⟨-, recordSize, hstore⟩
    · exact h
    · rw [hstore]
      refine h.setTable fun fh hfh r => ?_
      obtain rfl := Option.some.inj hfh
      have hrecord : (RmFileHandle.create recordSize).record r = zeroRecord recordSize := by
        unfold RmFileHandle.record
        split <;> rfl
      rw [hrecord]
      exact ⟨rfl, rfl⟩
  | dropTable tab =>
    rcases step_dropTable hstep with hsame | hstore
    · rw [hsame]
      exact h
    · rw [hstore]
      exact h.setTable fun _ hfh => by cases hfh
  | createIndex tab colNames unique =>
    rw [step_createIndex hstep]
    exact h

end Store

variable {db₀ db : Database} {txnId : ℤ} {txn : Transaction} {tab : String} {rid : Rid} {view : RecordView}

/-- A server that was just started on files without timestamps. -/
structure Database.StartedUnstamped (db : Database) (nextTimestamp : ℤ) : Prop extends db.Started nextTimestamp where
  unstamped : ∀ tab rid rec_, db.store.slot tab rid = some rec_ → rec_.tupleMeta.ts = 0

theorem Database.Reaches.attributed {n : ℤ} (hreach : db₀.Reaches WritesStamped db) (hstart : db₀.StartedUnstamped n) :
    db.store.Attributed := by
  induction hreach with
  | refl =>
    have hnil : db₀.store.txnMgr.txnMap = [] := by
      rw [hstart.txnMgr]
      rfl
    have hmarks : db₀.store.txnMgr.Marks := hstart.txnMgr ▸ TransactionManager.marks_init n
    refine ⟨hstart.inv, hmarks.toChained, ?_, ?_, ?_, fun tab rid rec_ hslot => ?_, ?_, ?_, ?_⟩
    · rw [hstart.txnMgr]
      exact hstart.nonneg
    · simp [hnil]
    · simp [hnil]
    · exact .of_initial (hstart.unstamped tab rid rec_ hslot) (hstart.unwritten tab rid rec_ hslot).2
    · simp [hnil]
    · simp [hnil]
    · rw [hstart.txnMgr]
      exact fun _ _ hlink => by cases hlink
  | tail _ hstep ih =>
    obtain ⟨action, hallowed, hstep⟩ := hstep
    exact ih.step hallowed hstep

theorem Database.emptyTables_unstamped {n : ℤ} (hn : 0 ≤ n) (tables : List String) :
    (emptyTables n tables).StartedUnstamped n :=
  ⟨emptyTables_started hn tables, emptyTables_fresh n tables⟩

/-- Whatever the other transactions do, a reader is served what it has written itself, what was there before the start, or
what a transaction has written that has committed by then and started earlier. -/
theorem no_dirty_reads {n : ℤ} (hstart : db₀.StartedUnstamped n) (hreach : db₀.Reaches WritesStamped db)
    (htxn : db.activeTxn txnId = some txn) (hread : db.store.getRecordMvcc tab txn.startTs rid = .ok (some view)) :
    db.store.txnMgr.MayRead txn view.row.writer := by
  obtain ⟨hmem, -, hactive⟩ := activeTxn_mem htxn
  exact (hreach.attributed hstart).mayRead hmem hactive hread

/-- Transaction 1 reads the old version of a row that transaction 2 has updated. -/
theorem no_dirty_reads_updated :
    ∃ db txn view, (emptyTables 1 ["t"]).run WritesStamped
        [.begin, .stmt 0 (.insert "t" [.int 1, .int 5]), .commit 0, .begin, .begin,
          .stmt 2 (updateB "t" 1 7)] = some db ∧
      db.activeTxn 1 = some txn ∧ db.store.getRecordMvcc "t" txn.startTs ⟨1, 0⟩ = .ok (some view) ∧
      view.row.writer = 0 ∧ db.store.txnMgr.MayRead txn view.row.writer := by
  obtain ⟨db, hrun, txn, htxn, view, hread, hwriter⟩ : ∃ db, (emptyTables 1 ["t"]).run WritesStamped
        [.begin, .stmt 0 (.insert "t" [.int 1, .int 5]), .commit 0, .begin, .begin,
          .stmt 2 (updateB "t" 1 7)] = some db ∧
      ∃ txn, db.activeTxn 1 = some txn ∧
        ∃ view, db.store.getRecordMvcc "t" txn.startTs ⟨1, 0⟩ = .ok (some view) ∧ view.row.writer = 0 :=
    ⟨_, rfl, _, rfl, _, rfl, rfl⟩
  exact ⟨db, txn, view, hrun, htxn, hread, hwriter,
    no_dirty_reads (emptyTables_unstamped (n := 1) (by decide) ["t"]) (reaches_of_run hrun) htxn hread⟩

/-- What a transaction is given of a slot has not been written by another one that is still active or was aborted. -/
def Database.ReadsCommitted (db : Database) : Prop :=
  ∀ txnId txn tab rid view, db.activeTxn txnId = some txn →
    db.store.getRecordMvcc tab txn.startTs rid = .ok (some view) →
      ∀ writer ∈ db.store.txnMgr.txnMap, writer.txnId = view.row.writer → writer.txnId ≠ txn.txnId →
        writer.state = .committed

/-- No read is dirty in a run in which every statement is of a transaction that did not start at 0. -/
theorem readsCommitted_of_run {n : ℤ} (hstart : db₀.StartedUnstamped n) (hrun : db₀.Reaches WritesStamped db) :
    db.ReadsCommitted := by
  intro txnId txn tab rid view htxn hread writer hmem hwriter hother
  have hattr := hrun.attributed hstart
  obtain ⟨htxn_mem, -, hactive⟩ := activeTxn_mem htxn
  rcases hattr.mayRead htxn_mem hactive hread with hinitial | hown | ⟨owner, howner, hid, hstate, -⟩
  · exact absurd (hwriter.trans hinitial) (hattr.inv.toIds.ne_invalid hmem)
  · exact absurd (hwriter.trans hown) hother
  · rwa [hattr.inv.id_inj owner howner writer hmem (hid.trans hwriter.symm)] at hstate

/-- Transaction 1 updates a row that transaction 0 has inserted, and transaction 2 reads it. -/
theorem readsCommitted_of_run_updated :
    ∃ db, (emptyTables 1 ["t"]).run WritesStamped
        [.begin, .stmt 0 (.insert "t" [.int 1, .int 5]), .commit 0, .begin, .stmt 1 (updateB "t" 1 7), .begin] = some db ∧
      db.ReadsCommitted ∧ (db.activeTxn 2).isSome := by
  obtain ⟨db, hrun, hreader⟩ : ∃ db, (emptyTables 1 ["t"]).run WritesStamped
        [.begin, .stmt 0 (.insert "t" [.int 1, .int 5]), .commit 0, .begin, .stmt 1 (updateB "t" 1 7), .begin] = some db ∧
      (db.activeTxn 2).isSome :=
    ⟨_, rfl, rfl⟩
  exact ⟨db, hrun, readsCommitted_of_run (emptyTables_unstamped (n := 1) (by decide) ["t"]) (reaches_of_run hrun), hreader⟩

/-- Transaction 0 starts at 0; transaction 1 is given the row that it has inserted and not committed. -/
theorem not_readsCommitted : ¬∀ (db₀ db : Database) (n : ℤ), db₀.StartedUnstamped n → db₀.Reaches KeepsVersions db →
    db.ReadsCommitted := by
  intro h
  obtain ⟨db, hrun, txn, htxn, view, hread, writer, hwriter, hid, hother, hstate⟩ :
      ∃ db, (emptyTables 0 ["t"]).run KeepsVersions [.begin, .stmt 0 (.insert "t" [.int 1, .int 5]), .begin] = some db ∧
      ∃ txn, db.activeTxn 1 = some txn ∧
      ∃ view, db.store.getRecordMvcc "t" txn.startTs ⟨1, 0⟩ = .ok (some view) ∧
      ∃ writer, db.store.txnMgr.getTransaction 0 = some writer ∧ writer.txnId = view.row.writer ∧
        writer.txnId ≠ txn.txnId ∧ writer.state ≠ .committed :=
    ⟨_, rfl, _, rfl, _, rfl, _, rfl, rfl, by decide, by decide⟩
  have hmem := (TransactionManager.mem_of_getTransaction hwriter).1
  have hclean := h _ db 0 (emptyTables_unstamped (n := 0) (by decide) ["t"]) (reaches_of_run hrun)
  exact hstate (hclean 1 txn "t" ⟨1, 0⟩ view htxn hread writer hmem hid hother)

/-- Where a reader may not see the record in a slot, an undo log tells what it gets; the record is never served for want of
a decision. -/
theorem history_decides {n startTs : ℤ} {fh : RmFileHandle} (hstart : db₀.StartedUnstamped n)
    (hreach : db₀.Reaches WritesStamped db) (hfh : db.store.fhs tab = some fh) (hrid : 0 ≤ rid.slotNo)
    (hpage : fh.hasPage rid.pageNo) (hplace : ¬fh.readsInPlace db.store.txnMgr startTs rid) :
    ∃ link row, db.store.txnMgr.getVersionLink rid = some link ∧
      fh.walkHistory db.store.txnMgr startTs (db.store.txnMgr.logCount + 1) link = some row :=
  (hreach.attributed hstart).history_decides_walk hfh hrid hpage hplace

/-- Transaction 0 may not see the row that transaction 1 has inserted; the log says that there was none. -/
theorem history_decides_inserted :
    ∃ db fh link row, (emptyTables 1 ["t"]).run WritesStamped
        [.begin, .begin, .stmt 1 (.insert "t" [.int 1, .int 5])] = some db ∧
      db.store.fhs "t" = some fh ∧ db.store.txnMgr.getVersionLink ⟨1, 0⟩ = some link ∧
      fh.walkHistory db.store.txnMgr 1 (db.store.txnMgr.logCount + 1) link = some row := by
  obtain ⟨db, hrun, fh, hfh, hpage, hplace⟩ : ∃ db, (emptyTables 1 ["t"]).run WritesStamped
        [.begin, .begin, .stmt 1 (.insert "t" [.int 1, .int 5])] = some db ∧
      ∃ fh, db.store.fhs "t" = some fh ∧ fh.hasPage (⟨1, 0⟩ : Rid).pageNo ∧ ¬fh.readsInPlace db.store.txnMgr 1 ⟨1, 0⟩ :=
    ⟨_, rfl, _, rfl, by decide, by decide +kernel⟩
  obtain ⟨link, row, hlink, hwalk⟩ := history_decides (emptyTables_unstamped (n := 1) (by decide) ["t"])
    (reaches_of_run hrun) hfh (by decide) hpage hplace
  exact ⟨db, fh, link, row, hrun, hfh, hlink, hwalk⟩

end Rmdb
