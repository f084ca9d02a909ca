import Rmdb.Execution.Outcome
import Rmdb.Lib.Chain

/-! The version chains: every link points back to an undo log that was there before, so that a walk
along a chain comes to an end. -/
namespace Rmdb
namespace TransactionManager

variable {tm tm' : TransactionManager} {link : UndoLink} {log : UndoLog} {txn : Transaction}

/-- The log behind the link has been appended, though its transaction may be gone. -/
def PointsBack (tm : TransactionManager) (link : UndoLink) : Prop :=
  link.prevTxn < tm.nextTxnId ∧
    ∀ txn ∈ tm.txnMap, txn.txnId = link.prevTxn → link.prevLogIdx < txn.undoLogs.length

structure Chained (tm : TransactionManager) : Prop where
  ids : tm.Ids
  heads : ∀ rid link, tm.versionInfo rid = some link → tm.PointsBack link
  prevs : ∀ txn ∈ tm.txnMap, ∀ log ∈ txn.undoLogs, tm.PointsBack log.prevVersion
  ranked : ∃ rank, Chain.Ranked tm.getUndoLogOptional UndoLog.prevVersion rank

theorem Ids.pointsBack_invalid (h : tm.Ids) : tm.PointsBack .invalid := by
  refine ⟨lt_of_lt_of_le ?_ h.next, fun txn htxn hid => ?_⟩
  · decide
  · have hbound := (h.bounds txn htxn).1
    rw [hid] at hbound
    exact absurd hbound (by decide)

theorem Ids.getUndoLogOptional_iff (h : tm.Ids) : tm.getUndoLogOptional link = some log ↔
    ∃ txn ∈ tm.txnMap, txn.txnId = link.prevTxn ∧ txn.undoLogs[link.prevLogIdx]? = some log := by
  simp only [getUndoLogOptional, Option.bind_eq_bind, Option.bind_eq_some_iff, h.getTransaction_iff]
  constructor
  · rintro ⟨txn, ⟨htxn, hid⟩, hlog⟩
    exact ⟨txn, htxn, hid, hlog⟩
  · rintro ⟨txn, htxn, hid, hlog⟩
    exact ⟨txn, ⟨htxn, hid⟩, hlog⟩

theorem Chained.prev (h : tm.Chained) (hlog : tm.getUndoLogOptional link = some log) :
    tm.PointsBack log.prevVersion := by
  obtain ⟨txn, htxn, -, hlog⟩ := h.ids.getUndoLogOptional_iff.mp hlog
  exact h.prevs txn htxn log (List.mem_of_getElem? hlog)

/-! ### Walks -/

/-- What a log of the chain says to a reader, if anything. -/
def logDecision (fh : RmFileHandle) (tm : TransactionManager) (startTs : ℤ) (log : UndoLog) :
    Option (Option RowData) :=
  if tm.logVisible startTs log then
    if log.isDeleted then some none else (fh.reconstructTupleFromUndoLog log).map some
  else none

theorem walkHistory_eq (fh : RmFileHandle) (startTs : ℤ) (fuel : ℕ) (link : UndoLink) :
    fh.walkHistory tm startTs fuel link =
      Chain.walk tm.getUndoLogOptional UndoLog.prevVersion (logDecision fh tm startTs) fuel link := by
  induction fuel generalizing link with
  | zero => rfl
  | succ fuel ih =>
    simp only [RmFileHandle.walkHistory, Chain.walk]
    cases tm.getUndoLogOptional link with
    | none => rfl
    | some log =>
      simp only [logDecision]
      cases hvisible : tm.logVisible startTs log with
      | false => simpa using ih log.prevVersion
      | true =>
        cases hdel : log.isDeleted with
        | true => simp
        | false =>
          cases fh.reconstructTupleFromUndoLog log with
          | none => simpa using ih log.prevVersion
          | some row => simp

/-- All links behind which there is a log. -/
def logLinks (tm : TransactionManager) : List UndoLink :=
  tm.txnMap.flatMap fun txn => (List.range txn.undoLogs.length).map fun i => ⟨txn.txnId, i⟩

theorem length_logLinks : tm.logLinks.length = tm.logCount := by
  simp [logLinks, logCount, List.length_flatMap]

theorem Ids.mem_logLinks (h : tm.Ids) (hlog : tm.getUndoLogOptional link = some log) :
    link ∈ tm.logLinks := by
  obtain ⟨txn, htxn, hid, hlog⟩ := h.getUndoLogOptional_iff.mp hlog
  obtain ⟨hlt, -⟩ := List.getElem?_eq_some_iff.mp hlog
  refine List.mem_flatMap.mpr ⟨txn, htxn, List.mem_map.mpr ⟨link.prevLogIdx, List.mem_range.mpr hlt, ?_⟩⟩
  rw [hid]

/-- No walk is cut off by its bound. -/
theorem Chained.walkHistory_fuel (h : tm.Chained) (fh : RmFileHandle) (startTs : ℤ) {fuel : ℕ} (fuel' : ℕ)
    (hf : tm.logCount < fuel) (hf' : tm.logCount < fuel') :
    fh.walkHistory tm startTs fuel link = fh.walkHistory tm startTs fuel' link := by
  obtain ⟨rank, hrank⟩ := h.ranked
  have hcard : tm.logLinks.toFinset.card ≤ tm.logCount :=
    length_logLinks ▸ tm.logLinks.toFinset_card_le
  rw [walkHistory_eq, walkHistory_eq]
  refine Chain.walk_fuel hrank tm.logLinks.toFinset (fun l n hl => ?_) (by omega) (by omega)
  exact List.mem_toFinset.mpr (h.ids.mem_logLinks hl)

/-! ### What keeps the chains -/

/-- Logs and links may go or be restamped; a new transaction has none. -/
structure LogsFrom (tm tm' : TransactionManager) : Prop where
  nextTxnId : tm.nextTxnId ≤ tm'.nextTxnId
  versionInfo : ∀ rid link, tm'.versionInfo rid = some link → tm.versionInfo rid = some link
  logs : ∀ new ∈ tm'.txnMap, new.undoLogs = [] ∧ tm.nextTxnId ≤ new.txnId ∨
    ∃ old ∈ tm.txnMap, new.txnId = old.txnId ∧
      new.undoLogs.map UndoLog.prevVersion = old.undoLogs.map UndoLog.prevVersion

theorem LogsFrom.pointsBack (h : LogsFrom tm tm') (hlink : tm.PointsBack link) :
    tm'.PointsBack link := by
  refine ⟨hlink.1.trans_le h.nextTxnId, fun new hnew hid => ?_⟩
  rcases h.logs new hnew with ⟨-, hlate⟩ | ⟨old, hold, hid', hmap⟩
  · have hlt := hlink.1
    omega
  · have hlen := congrArg List.length hmap
    rw [List.length_map, List.length_map] at hlen
    rw [hlen]
    exact hlink.2 old hold (hid'.symm.trans hid)

/-- The log behind a link after the step had the same predecessor before. -/
theorem LogsFrom.getUndoLogOptional (h : LogsFrom tm tm') (hids : tm.Ids) (hids' : tm'.Ids)
    (hlog : tm'.getUndoLogOptional link = some log) :
    ∃ old, tm.getUndoLogOptional link = some old ∧ old.prevVersion = log.prevVersion := by
  obtain ⟨new, hnew, hid, hlog⟩ := hids'.getUndoLogOptional_iff.mp hlog
  rcases h.logs new hnew with ⟨hnil, -⟩ | ⟨old, hold, hid', hmap⟩
  · rw [hnil] at hlog
    cases hlog
  · have hprev := congrArg (·[link.prevLogIdx]?) hmap
    simp only [List.getElem?_map, hlog, Option.map_some] at hprev
    obtain ⟨oldLog, holdLog, heq⟩ := Option.map_eq_some_iff.mp hprev.symm
    exact ⟨oldLog, hids.getUndoLogOptional_iff.mpr ⟨old, hold, hid'.symm.trans hid, holdLog⟩, heq⟩

theorem Chained.of_logsFrom (hc : tm.Chained) (h : LogsFrom tm tm') (hids : tm'.Ids) : tm'.Chained := by
  refine ⟨hids, fun rid link hlink => h.pointsBack (hc.heads rid link (h.versionInfo rid link hlink)), ?_, ?_⟩
  · intro new hnew log hlog
    rcases h.logs new hnew with ⟨hnil, -⟩ | ⟨old, hold, -, hmap⟩
    · rw [hnil] at hlog
      cases hlog
    · have hmem : log.prevVersion ∈ old.undoLogs.map UndoLog.prevVersion :=
        hmap ▸ List.mem_map_of_mem hlog
      obtain ⟨oldLog, holdLog, heq⟩ := List.mem_map.mp hmem
      exact heq ▸ h.pointsBack (hc.prevs old hold oldLog holdLog)
  · obtain ⟨rank, hrank⟩ := hc.ranked
    refine ⟨rank, fun link log hlog log' hlog' => ?_⟩
    obtain ⟨old, hold, heq⟩ := h.getUndoLogOptional hc.ids hids hlog
    obtain ⟨old', hold', -⟩ := h.getUndoLogOptional hc.ids hids hlog'
    rw [← heq] at hold' ⊢
    exact hrank link old hold old' hold'

theorem Chained.begin (h : tm.Chained) : tm.begin.2.Chained := by
  refine h.of_logsFrom ⟨Int.le_add_one le_rfl, fun _ _ hlink => hlink, fun new hnew => ?_⟩ h.ids.begin
  rcases mem_begin.mp hnew with hnew | rfl
  · exact .inr ⟨new, hnew, rfl, rfl⟩
  · exact .inl ⟨rfl, le_rfl⟩

theorem Chained.commitTxn (h : tm.Chained) : (tm.commitTxn txn).Chained := by
  refine h.of_logsFrom ⟨le_rfl, fun _ _ hlink => hlink, fun new hnew => ?_⟩ h.ids.commitTxn
  obtain ⟨old, hold, ⟨-, rfl⟩ | ⟨-, rfl⟩⟩ := mem_commitTxn hnew
  · exact .inr ⟨new, hold, rfl, rfl⟩
  · refine .inr ⟨old, hold, rfl, ?_⟩
    simp only [Transaction.committedAt, List.map_map]
    congr 1
    funext log
    simp only [Function.comp_apply]
    split <;> rfl

theorem Chained.markAborted (h : tm.Chained) : (tm.markAborted txn.txnId txn.startTs).Chained := by
  refine h.of_logsFrom ⟨le_rfl, fun _ _ hlink => hlink, fun new hnew => ?_⟩ h.ids.markAborted
  obtain ⟨old, hold, ⟨-, rfl⟩ | ⟨-, rfl⟩⟩ := mem_markAborted hnew
  · exact .inr ⟨new, hold, rfl, rfl⟩
  · exact .inr ⟨old, hold, rfl, rfl⟩

theorem Chained.garbageCollection (h : tm.Chained) : tm.garbageCollection.Chained := by
  refine h.of_logsFrom ⟨le_rfl, fun rid link hlink => ?_, fun new hnew => ?_⟩ h.ids.garbageCollection
  · exact (Option.filter_eq_some_iff.mp hlink).1
  · exact .inr ⟨new, (mem_garbageCollection.mp hnew).1, rfl, rfl⟩

/-- The write set may change. -/
theorem Chained.writeSet {id : ℤ} {f : List WriteRecord → List WriteRecord} (h : tm.Chained) :
    (tm.modifyTxn id fun txn => { txn with writeSet := f txn.writeSet }).Chained := by
  have hinert : tm.Inert (tm.modifyTxn id fun txn => { txn with writeSet := f txn.writeSet }) :=
    .modifyTxn fun _ => ⟨rfl, rfl, rfl, rfl⟩
  refine h.of_logsFrom ⟨le_rfl, fun _ _ hlink => hlink, fun new hnew => ?_⟩ (hinert.ids h.ids)
  obtain ⟨old, hold, rfl⟩ := mem_modifyTxn hnew
  refine .inr ⟨old, hold, ?_⟩
  split <;> exact ⟨rfl, rfl⟩

/-! ### Statements -/

section logged
variable {txnId : ℤ} {ws : List WriteRecord} {cur : Transaction}

theorem nextUndoLink_eq (hids : tm.Ids) (hcur : cur ∈ tm.txnMap) :
    tm.nextUndoLink cur.txnId = ⟨cur.txnId, cur.undoLogs.length⟩ := by
  simp [nextUndoLink, hids.getTransaction hcur]

theorem Logged.getUndoLogOptional (h : tm.Logged tm' txnId log ws) (hids : tm.Ids)
    (hcur : cur ∈ tm.txnMap) (hid : cur.txnId = txnId) :
    tm'.getUndoLogOptional link =
      if link = ⟨txnId, cur.undoLogs.length⟩ then some log else tm.getUndoLogOptional link := by
  have hids' := h.inert.ids hids
  have hself : { cur with undoLogs := cur.undoLogs ++ [log], writeSet := cur.writeSet ++ ws } ∈ tm'.txnMap := by
    rw [h.txnMap]
    exact List.mem_map.mpr ⟨cur, hcur, if_pos hid⟩
  by_cases htxn : link.prevTxn = txnId
  · have hnew := hids'.getTransaction hself
    have hold := hids.getTransaction hcur
    simp only [hid] at hnew hold
    simp only [TransactionManager.getUndoLogOptional, htxn, hnew, hold, Option.bind_eq_bind,
      Option.bind_some]
    by_cases hidx : link.prevLogIdx = cur.undoLogs.length
    · rw [hidx, List.getElem?_append_right le_rfl, if_pos]
      · simp
      · cases link
        simp_all
    · rw [if_neg fun heq => hidx (by rw [heq])]
      rw [List.getElem?_append]
      split
      · rfl
      · have hright : [log][link.prevLogIdx - cur.undoLogs.length]? = none :=
          List.getElem?_eq_none (by simp only [List.length_singleton]; omega)
        have hleft : cur.undoLogs[link.prevLogIdx]? = none := List.getElem?_eq_none (by omega)
        rw [hright, hleft]
  · rw [if_neg fun heq => htxn (by rw [heq])]
    have hget : tm'.getTransaction link.prevTxn = tm.getTransaction link.prevTxn := by
      apply Option.ext
      intro txn
      rw [hids'.getTransaction_iff, hids.getTransaction_iff]
      constructor
      · rintro ⟨hmem, hid'⟩
        obtain ⟨old, hold, ⟨-, rfl⟩ | ⟨hid'', rfl⟩⟩ := h.mem hmem
        · exact ⟨hold, hid'⟩
        · exact absurd (hid'.symm.trans hid'') htxn
      · rintro ⟨hmem, hid'⟩
        refine ⟨?_, hid'⟩
        rw [h.txnMap]
        exact List.mem_map.mpr ⟨txn, hmem, if_neg (hid'.symm ▸ htxn)⟩
    simp only [TransactionManager.getUndoLogOptional, hget]

theorem Logged.pointsBack (h : tm.Logged tm' txnId log ws) (hlink : tm.PointsBack link) :
    tm'.PointsBack link := by
  refine ⟨h.inert.nextTxnId ▸ hlink.1, fun new hnew hid => ?_⟩
  obtain ⟨old, hold, ⟨-, rfl⟩ | ⟨-, rfl⟩⟩ := h.mem hnew
  · exact hlink.2 new hold hid
  · have hlt := hlink.2 old hold hid
    rw [List.length_append]
    omega

theorem PointsBack.ne_next (h : tm.PointsBack link) (hcur : cur ∈ tm.txnMap) :
    link ≠ ⟨cur.txnId, cur.undoLogs.length⟩ := by
  rintro rfl
  exact absurd (h.2 cur hcur rfl) (lt_irrefl _)

theorem Chained.logged (hc : tm.Chained) (h : tm.Logged tm' txnId log ws) (hcur : cur ∈ tm.txnMap)
    (hid : cur.txnId = txnId) (hprev : tm.PointsBack log.prevVersion)
    (hversion : ∀ rid link, tm'.versionInfo rid = some link →
      tm.versionInfo rid = some link ∨ link = tm.nextUndoLink txnId) : tm'.Chained := by
  subst hid
  have hids' := h.inert.ids hc.ids
  refine ⟨hids', fun rid link hlink => ?_, fun new hnew log' hlog' => ?_, ?_⟩
  · rcases hversion rid link hlink with hold | rfl
    · exact h.pointsBack (hc.heads rid link hold)
    · rw [nextUndoLink_eq hc.ids hcur]
      refine ⟨h.inert.nextTxnId ▸ (hc.ids.bounds cur hcur).2, fun new hnew hid => ?_⟩
      obtain ⟨old, hold, ⟨hne, rfl⟩ | ⟨hid', rfl⟩⟩ := h.mem hnew
      · exact absurd hid hne
      · obtain rfl := hc.ids.id_inj old hold cur hcur hid'
        simp
  · obtain ⟨old, hold, ⟨-, rfl⟩ | ⟨-, rfl⟩⟩ := h.mem hnew
    · exact h.pointsBack (hc.prevs new hold log' hlog')
    · rcases List.mem_append.mp hlog' with hlog' | hlog'
      · exact h.pointsBack (hc.prevs old hold log' hlog')
      · rw [List.mem_singleton.mp hlog']
        exact h.pointsBack hprev
  · obtain ⟨rank, hrank⟩ := hc.ranked
    exact hrank.insert (fun link => h.getUndoLogOptional hc.ids hcur rfl) (hprev.ne_next hcur)
      fun link old hlog => (hc.prev hlog).ne_next hcur

end logged
end TransactionManager

open TransactionManager

theorem StmtStep.chained {tabs : String → Option TabMeta} {txn : Transaction} {tab : String}
    {target : Rid → Prop} {inserting : Prop} {s₀ s s' : Store}
    (hstep : StmtStep tabs txn tab target inserting s₀ s s') (h : s.txnMgr.Chained) :
    s'.txnMgr.Chained := by
  obtain ⟨cur, hcur, hid, -⟩ := hstep.runs.1.mem
  have hinvalid := h.ids.pointsBack_invalid
  have hgetD : ∀ {link : Option UndoLink}, (∀ l, link = some l → s.txnMgr.PointsBack l) →
      s.txnMgr.PointsBack (link.getD .invalid) := by
    intro link hlink
    cases link with
    | none => exact hinvalid
    | some l => exact hlink l rfl
  have hundo : ∀ rid, s.txnMgr.PointsBack ((s.txnMgr.getUndoLink rid).getD .invalid) := fun rid =>
    hgetD fun l hl => h.heads rid l (Option.filter_eq_some_iff.mp hl).1
  have hversion : ∀ rid, s.txnMgr.PointsBack ((s.txnMgr.getVersionLink rid).getD .invalid) := by
    intro rid
    refine hgetD fun l hl => ?_
    unfold getVersionLink at hl
    split at hl
    · cases hl
    · exact h.heads rid l hl
  have hupdate : ∀ {versionInfo rid'}, versionInfo =
      Function.update s.txnMgr.versionInfo rid' (some (s.txnMgr.nextUndoLink txn.txnId)) →
      ∀ rid link, versionInfo rid = some link →
        s.txnMgr.versionInfo rid = some link ∨ link = s.txnMgr.nextUndoLink txn.txnId := by
    rintro _ rid' rfl rid link hlink
    rw [Function.update_apply] at hlink
    split at hlink
    · exact .inr (Option.some.inj hlink).symm
    · exact .inl hlink
  cases hstep.outcome with
  | notInserted runs logged slots history version =>
    exact h.logged logged hcur hid hinvalid (hupdate version)
  | inserted inserting first runs file target slotNo free logged put history version =>
    exact h.logged logged hcur hid hinvalid (hupdate version)
  | refused inserting first runs file target slotNo free logged put history version =>
    exact h.logged logged hcur hid hinvalid (hupdate version)
  | logged may htab target logged slots history version =>
    exact h.logged logged hcur hid (hundo _) fun rid link hlink => .inl (version ▸ hlink)
  | overwritten may htab target write logged put history version =>
    refine h.logged logged hcur hid ?_ (hupdate version)
    cases write with
    | update data => exact hundo _
    | delete => exact hversion _

theorem StmtSteps.chained {tabs : String → Option TabMeta} {txn : Transaction} {tab : String}
    {target : Rid → Prop} {inserting : Prop} {s₀ s s' : Store}
    (hsteps : StmtSteps tabs txn tab target inserting s₀ s s') (h : s.txnMgr.Chained) :
    s'.txnMgr.Chained := by
  induction hsteps with
  | refl => exact h
  | tail _ hstep ih => exact hstep.chained ih

/-! ### What others read while a statement writes elsewhere -/

namespace TransactionManager

variable {tm tm' : TransactionManager} {ts startTs : ℤ}

theorem Inert.getTransactionByTimestamp (h : tm.Inert tm') : ∃ f : Transaction → Transaction,
    tm'.getTransactionByTimestamp ts = (tm.getTransactionByTimestamp ts).map f ∧
      ∀ txn, (f txn).txnId = txn.txnId ∧ (f txn).state = txn.state ∧ (f txn).commitTs = txn.commitTs := by
  obtain ⟨f, hmap, hf⟩ := h.txnMap
  refine ⟨f, ?_, fun txn => ⟨(hf txn).1, (hf txn).2.2⟩⟩
  unfold TransactionManager.getTransactionByTimestamp
  rw [hmap, List.find?_map]
  congr 2
  funext txn
  simp only [Function.comp_apply, (hf txn).2.1]

theorem Inert.isTransactionAborted (h : tm.Inert tm') :
    tm'.isTransactionAborted ts = tm.isTransactionAborted ts := by
  unfold TransactionManager.isTransactionAborted
  rw [h.abortedTxns]

theorem Inert.isCommittedBeforeReadTs (h : tm.Inert tm') :
    tm'.isCommittedBeforeReadTs ts startTs = tm.isCommittedBeforeReadTs ts startTs := by
  obtain ⟨f, hget, hf⟩ := h.getTransactionByTimestamp
  unfold TransactionManager.isCommittedBeforeReadTs
  rw [h.isTransactionAborted, h.committedTxns, h.runningTxns, hget]
  cases tm.getTransactionByTimestamp ts with
  | none => rfl
  | some txn => simp only [Option.map_some, hf]

theorem Inert.any_active (h : tm.Inert tm') :
    (tm'.getTransactionByTimestamp ts).any (·.isActive) =
      (tm.getTransactionByTimestamp ts).any (·.isActive) := by
  obtain ⟨f, hget, hf⟩ := h.getTransactionByTimestamp
  rw [hget]
  cases tm.getTransactionByTimestamp ts with
  | none => rfl
  | some txn => simp only [Option.map_some, Option.any_some, isActive_congr (hf txn).2.1]

theorem Inert.effectiveMeta (h : tm.Inert tm') (m : TupleMeta) :
    tm'.effectiveMeta m = tm.effectiveMeta m := by
  unfold TransactionManager.effectiveMeta hasTupleMeta
  rw [h.nextTimestamp]

theorem Inert.checkWriteWriteConflict {fh fh' : RmFileHandle} {rid : Rid}
    (h : tm.Inert tm') (txn : Transaction) (hpage : fh.hasPage rid.pageNo) (hpage' : fh'.hasPage rid.pageNo)
    (hrecord : fh'.record rid = fh.record rid) :
    fh'.checkWriteWriteConflict tm' txn rid = fh.checkWriteWriteConflict tm txn rid := by
  unfold RmFileHandle.checkWriteWriteConflict
  rw [if_pos hpage, if_pos hpage', hrecord, h.effectiveMeta]
  obtain ⟨f, hget, hf⟩ := h.getTransactionByTimestamp
  have hcommitted : tm'.isCommitted (tm.effectiveMeta (fh.record rid).tupleMeta).ts =
      tm.isCommitted (tm.effectiveMeta (fh.record rid).tupleMeta).ts := by
    unfold TransactionManager.isCommitted
    rw [h.isTransactionAborted, h.runningTxns, hget]
    cases tm.getTransactionByTimestamp (tm.effectiveMeta (fh.record rid).tupleMeta).ts with
    | none => rfl
    | some owner => simp only [Option.map_some, hf]
  dsimp only
  rw [hcommitted, hget]
  cases tm.getTransactionByTimestamp (tm.effectiveMeta (fh.record rid).tupleMeta).ts with
  | none => rfl
  | some owner =>
    obtain ⟨hid, hstate, hcommit⟩ := hf owner
    generalize tm.isCommitted (tm.effectiveMeta (fh.record rid).tupleMeta).ts = committed
    by_cases hown : owner.txnId = txn.txnId <;> cases committed
    all_goals simp only [Option.map_some, Option.filter, hid, hown, hcommit, ne_eq, not_true_eq_false,
      not_false_eq_true, decide_false, decide_true, Bool.false_eq_true, if_false, if_true, hstate,
      isActive_congr hstate]

end TransactionManager

namespace Store

variable {s s' : Store} {tab : String} {rid : Rid} {startTs txnId : ℤ} {log : UndoLog}
  {ws : List WriteRecord}

/-- A step that logs something reads as before wherever it leaves the slot and the head of the chain. -/
theorem getRecordMvcc_logged (hc : s.txnMgr.Chained) (hc' : s'.txnMgr.Chained)
    (hlogged : s.txnMgr.Logged s'.txnMgr txnId log ws)
    (hcur : ∃ cur ∈ s.txnMgr.txnMap, cur.txnId = txnId) (hslot : s'.slot tab rid = s.slot tab rid)
    (hpage : s.hasPage tab rid.pageNo) (hpage' : s'.hasPage tab rid.pageNo)
    (hsize : (s'.fhs tab).map (·.recordSize) = (s.fhs tab).map (·.recordSize))
    (hversion : 0 ≤ rid.slotNo → s'.txnMgr.versionInfo rid = s.txnMgr.versionInfo rid) :
    s'.getRecordMvcc tab startTs rid = s.getRecordMvcc tab startTs rid := by
  obtain ⟨fh, hfh, hpage⟩ := hpage
  obtain ⟨fh', hfh', hpage'⟩ := hpage'
  have hinert := hlogged.inert
  have hrecord : fh'.record rid = fh.record rid := by
    rw [slot_eq hfh, slot_eq hfh'] at hslot
    exact Option.some.inj hslot
  have hsize : fh'.recordSize = fh.recordSize := by
    rw [hfh, hfh'] at hsize
    exact Option.some.inj hsize
  simp only [getRecordMvcc, hfh, hfh']
  refine RmFileHandle.getRecordMvcc_congr hpage hpage' hrecord hinert.nextTimestamp
    (fun ts _ => hinert.isCommittedBeforeReadTs) (fun _ => ?_) fun hplace _ => ?_
  · simp only [RmFileHandle.deletedByActive, hrecord, hinert.effectiveMeta, hinert.isTransactionAborted,
      hinert.any_active]
  · have hpos := RmFileHandle.pos_of_not_readsInPlace hplace
    have hfallback : fh'.currentFallback s'.txnMgr startTs rid = fh.currentFallback s.txnMgr startTs rid := by
      rw [RmFileHandle.currentFallback_of_pos hpage hpos,
        RmFileHandle.currentFallback_of_pos hpage' (hrecord ▸ hpos), hrecord]
    unfold RmFileHandle.getVisibleVersionFromHistory
    have hhead : s'.txnMgr.getVersionLink rid = s.txnMgr.getVersionLink rid := by
      unfold TransactionManager.getVersionLink
      split
      · rfl
      · rename_i hrid
        exact hversion (by omega)
    rw [hhead]
    cases hlink : s.txnMgr.getVersionLink rid with
    | none => exact hfallback
    | some link =>
      have hback : s.txnMgr.PointsBack link := by
        unfold TransactionManager.getVersionLink at hlink
        split at hlink
        · cases hlink
        · exact hc.heads rid link hlink
      have hwalk : fh'.walkHistory s'.txnMgr startTs (s'.txnMgr.logCount + 1) link =
          fh.walkHistory s.txnMgr startTs (s.txnMgr.logCount + 1) link := by
        let fuel := s'.txnMgr.logCount + s.txnMgr.logCount + 1
        rw [hc'.walkHistory_fuel fh' startTs fuel (by omega) (by omega),
          hc.walkHistory_fuel fh startTs fuel (by omega) (by omega),
          TransactionManager.walkHistory_eq, TransactionManager.walkHistory_eq]
        obtain ⟨cur, hcur, hid⟩ := hcur
        refine Chain.walk_congr_closed (Q := s.txnMgr.PointsBack) (fun l hl => ?_)
          (fun l n _ hl => hc.prev hl) (fun log => ?_) hback
        · rw [hlogged.getUndoLogOptional hc.ids hcur hid, if_neg (hid ▸ hl.ne_next hcur)]
        · have hvisible : s'.txnMgr.logVisible startTs log = s.txnMgr.logVisible startTs log := by
            unfold TransactionManager.logVisible
            rw [hinert.isCommittedBeforeReadTs]
          unfold TransactionManager.logDecision RmFileHandle.reconstructTupleFromUndoLog
          rw [hvisible, hsize]
      dsimp only
      rw [hwalk]
      split
      · rfl
      · exact hfallback

end Store

/-- A statement does not change what anybody reads where it does not write. -/
theorem StmtStep.getRecordMvcc {tabs : String → Option TabMeta} {txn : Transaction} {tab t : String}
    {target : Rid → Prop} {inserting : Prop} {s₀ s s' : Store} {rid : Rid} {startTs : ℤ}
    (hstep : StmtStep tabs txn tab target inserting s₀ s s') (hc : s.txnMgr.Chained) (hrid : ¬target rid)
    (hpage : s.hasPage t rid.pageNo) :
    s'.getRecordMvcc t startTs rid = s.getRecordMvcc t startTs rid ∧ s'.hasPage t rid.pageNo := by
  have hc' := hstep.chained hc
  have hcur : ∃ cur ∈ s.txnMgr.txnMap, cur.txnId = txn.txnId := by
    obtain ⟨cur, hmem, hid, -⟩ := hstep.runs.1.mem
    exact ⟨cur, hmem, hid⟩
  have hput : ∀ {r rec_ used log ws link}, target r → s.Put s' tab r rec_ used →
      s.txnMgr.Logged s'.txnMgr txn.txnId log ws → s'.txnMgr.versionInfo = Function.update s.txnMgr.versionInfo r link →
      s'.getRecordMvcc t startTs rid = s.getRecordMvcc t startTs rid ∧ s'.hasPage t rid.pageNo := by
    intro r rec_ used log ws link htarget put logged version
    have hne : r ≠ rid := fun heq => hrid (heq ▸ htarget)
    have hpage' := put.hasPage t rid.pageNo hpage
    exact ⟨Store.getRecordMvcc_logged hc hc' logged hcur (put.slot_ne fun h => hne h.2.symm) hpage hpage'
      (put.recordSize t) fun _ => version ▸ Function.update_of_ne hne.symm _ _, hpage'⟩
  cases hstep.outcome with
  | notInserted runs logged slots history version =>
    have hpage' := slots.hasPage t rid.pageNo hpage
    refine ⟨Store.getRecordMvcc_logged hc hc' logged hcur (slots.slot t rid) hpage hpage'
      (slots.recordSize t) fun hslotNo => ?_, hpage'⟩
    rw [version, Function.update_of_ne]
    rintro rfl
    exact absurd hslotNo (by decide)
  | inserted inserting first runs file target slotNo free logged put history version =>
    exact hput target put logged version
  | refused inserting first runs file target slotNo free logged put history version =>
    exact hput target put logged version
  | logged may htab target logged slots history version =>
    have hpage' := slots.hasPage t rid.pageNo hpage
    exact ⟨Store.getRecordMvcc_logged hc hc' logged hcur (slots.slot t rid) hpage hpage'
      (slots.recordSize t) fun _ => congrFun version rid, hpage'⟩
  | overwritten may htab target write logged put history version =>
    exact hput target put logged version

theorem StmtSteps.getRecordMvcc {tabs : String → Option TabMeta} {txn : Transaction} {tab t : String}
    {target : Rid → Prop} {inserting : Prop} {s₀ s s' : Store} {rid : Rid} {startTs : ℤ}
    (hsteps : StmtSteps tabs txn tab target inserting s₀ s s') (hc : s.txnMgr.Chained) (hrid : ¬target rid)
    (hpage : s.hasPage t rid.pageNo) :
    s'.getRecordMvcc t startTs rid = s.getRecordMvcc t startTs rid ∧ s'.hasPage t rid.pageNo := by
  induction hsteps with
  | refl => exact ⟨rfl, hpage⟩
  | tail hsteps hstep ih =>
    obtain ⟨heq, hpage'⟩ := ih
    obtain ⟨heq', hpage''⟩ := hstep.getRecordMvcc (StmtSteps.chained hsteps hc) hrid hpage'
    exact ⟨heq'.trans heq, hpage''⟩

end Rmdb
