import Rmdb.System.GarbageCollection

/-! A walk along a version chain comes to its end, in every state of the server. -/
namespace Rmdb

open Database StateTransition

namespace TransactionManager

/-- Following `prev_version_` from an undo log that is there. -/
def prevLink (tm : TransactionManager) (link : UndoLink) : Option UndoLink :=
  (tm.getUndoLogOptional link).map UndoLog.prevVersion

theorem goes_prevLink (tm : TransactionManager) : Chain.Goes tm.getUndoLogOptional UndoLog.prevVersion tm.prevLink := by
  intro link link' h
  exact Option.map_eq_some_iff.mp h

end TransactionManager

namespace RmFileHandle

/-- The loop of `GetVisibleVersionFromHistory` goes on, behind a log that decides nothing. -/
def historyStep (fh : RmFileHandle) (tm : TransactionManager) (startTs : ℤ) (link : UndoLink) : Option UndoLink :=
  match tm.getUndoLogOptional link with
  | none => none
  | some log =>
    if tm.logVisible startTs log && (log.isDeleted || (fh.reconstructTupleFromUndoLog log).isSome) then none
    else some log.prevVersion

variable (fh : RmFileHandle) (tm : TransactionManager) (startTs : ℤ)

theorem goes_historyStep : Chain.Goes tm.getUndoLogOptional UndoLog.prevVersion (fh.historyStep tm startTs) := by
  intro link link' h
  unfold historyStep at h
  cases hlog : tm.getUndoLogOptional link with
  | none =>
    rw [hlog] at h
    cases h
  | some log =>
    rw [hlog] at h
    dsimp only at h
    split at h
    · cases h
    · exact ⟨log, rfl, Option.some.inj h⟩

/-- The walk makes these steps. -/
theorem walkHistory_succ {link link' : UndoLink} (h : fh.historyStep tm startTs link = some link') (fuel : ℕ) :
    fh.walkHistory tm startTs (fuel + 1) link = fh.walkHistory tm startTs fuel link' := by
  unfold historyStep at h
  rw [walkHistory]
  cases hlog : tm.getUndoLogOptional link with
  | none =>
    rw [hlog] at h
    cases h
  | some log =>
    rw [hlog] at h
    dsimp only at h ⊢
    cases hvisible : tm.logVisible startTs log with
    | false =>
      rw [hvisible, Bool.false_and, if_neg Bool.false_ne_true] at h
      obtain rfl := Option.some.inj h
      rw [if_neg Bool.false_ne_true]
    | true =>
      cases hdel : log.isDeleted with
      | true =>
        rw [hvisible, hdel] at h
        cases h
      | false =>
        cases hrow : fh.reconstructTupleFromUndoLog log with
        | some row =>
          rw [hvisible, hdel, hrow] at h
          cases h
        | none =>
          rw [hvisible, hdel, hrow] at h
          obtain rfl := Option.some.inj h
          rfl

end RmFileHandle

variable {db₀ db : Database}

/-- From the link of any slot no undo log is visited twice, and every reader's walk ends. -/
theorem version_chains_end {n : ℤ} (hstart : db₀.Started n) (hreach : db₀.Reaches (fun _ _ => True) db) (rid : Rid)
    (link : UndoLink) (_hlink : db.store.txnMgr.versionInfo rid = some link) :
    (∀ link', Reaches db.store.txnMgr.prevLink link link' → ¬Reaches₁ db.store.txnMgr.prevLink link' link') ∧
      ∀ (fh : RmFileHandle) (startTs : ℤ), Loops.Stops (fh.historyStep db.store.txnMgr startTs) link := by
  have hmarks : db.store.txnMgr.Marks := hreach.marks (hstart.txnMgr ▸ TransactionManager.marks_init n)
  obtain ⟨rank, hrank⟩ := hmarks.ranked
  constructor
  · intro link' _
    exact hrank.not_reaches db.store.txnMgr.goes_prevLink
  · intro fh startTs
    exact hrank.stops (fh.goes_historyStep db.store.txnMgr startTs) link

/-- A row has been inserted and updated twice, by two transactions. -/
theorem version_chains_end_updated :
    ∃ db link, (emptyTables 1 ["t"]).run (fun _ _ => True)
        [.begin, .stmt 0 (.insert "t" [.int 1, .int 5]), .commit 0, .begin, .stmt 1 (updateB "t" 1 7),
          .stmt 1 (updateB "t" 1 8)] = some db ∧
      db.store.txnMgr.versionInfo ⟨1, 0⟩ = some link ∧
      ∀ (fh : RmFileHandle) (startTs : ℤ), Loops.Stops (fh.historyStep db.store.txnMgr startTs) link := by
  obtain ⟨db, hrun, link, hlink⟩ : ∃ db, (emptyTables 1 ["t"]).run (fun _ _ => True)
        [.begin, .stmt 0 (.insert "t" [.int 1, .int 5]), .commit 0, .begin, .stmt 1 (updateB "t" 1 7),
          .stmt 1 (updateB "t" 1 8)] = some db ∧ ∃ link, db.store.txnMgr.versionInfo ⟨1, 0⟩ = some link :=
    ⟨_, rfl, _, rfl⟩
  exact ⟨db, link, hrun, hlink, (version_chains_end (emptyTables_started (n := 1) (by decide) ["t"])
    (reaches_of_run hrun) ⟨1, 0⟩ link hlink).2⟩

end Rmdb
