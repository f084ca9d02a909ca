import Rmdb.Lib.Writes
import Rmdb.System.FullUndo

/-! An UPDATE in autocommit mode that throws, and what is left of it after the client handler has
dealt with the error. -/
namespace Rmdb

open Program Database TransactionManager Writes

/-! ### Statements in autocommit mode -/

/-- The state in which the statement starts: `SetTransaction` has begun a transaction for it. -/
def Database.begun (db : Database) : Database := { db with store := db.store.begin }

def Database.ownTxn (db : Database) : Option Transaction := db.begun.activeTxn db.store.txnMgr.nextTxnId

/-- The old object is deleted but stays in the table. -/
def Store.deleteTransaction (s : Store) (txnId : ℤ) : Store :=
  { s with txnMgr := s.txnMgr.modifyTxn txnId fun txn => { txn with freed := true } }

/-- A statement outside of an explicit transaction. After a `TransactionAbortException` the handler
aborts and begins a new transaction, which is not committed; after any other outcome, an `RMDBError`
too, it commits. Nothing comes back from a server that went down. -/
def Database.autocommit (db : Database) (stmt : Statement) : Option (Except DbError Unit × Database) := do
  let txnId := db.store.txnMgr.nextTxnId
  let txn ← db.ownTxn
  let (result, db) := runFrom (stmt.exec txn) db.begun
  let txn ← db.store.txnMgr.getTransaction txnId
  match result with
  | .error .crash => none
  | .error .transactionAbort =>
    let store ← db.store.abort txn
    return (result, { db with store := (store.deleteTransaction txnId).begin })
  | _ => return (result, { db with store := db.store.commit txn })

/-! ### Rows and index entries -/

/-- What a slot says: nothing, or the data of a row with its delete mark. -/
def Store.rows (s : Store) (at_ : String × Rid) : Option (Bool × Bytes) :=
  if s.occupied at_.1 at_.2 then
    (s.slot at_.1 at_.2).map fun rec_ => (rec_.tupleMeta.isDeleted, rec_.row.bytes)
  else none

structure Unchanged (db db' : Database) : Prop where
  rows : db'.store.rows = db.store.rows
  entries : ∀ name cmp key, (db'.ihs name).map (·.getValue cmp key) = (db.ihs name).map (·.getValue cmp key)

theorem Unchanged.of_ihs {db db' : Database} (h : db'.ihs = db.ihs) :
    Unchanged db db' ↔ db'.store.rows = db.store.rows := by
  refine ⟨fun hsame => hsame.rows, fun hrows => ⟨hrows, fun name cmp key => ?_⟩⟩
  rw [h]

section rows
variable {s s' : Store} {txn : Transaction} {tab : String} {rid : Rid} {fh : RmFileHandle}

theorem Store.rows_congr (h : s'.fhs = s.fhs) : s'.rows = s.rows := by
  funext at_
  unfold rows occupied slot
  rw [h]

/-- The pages of the files decide the rows. -/
theorem Store.rows_contents (h : SameContents s'.fhs s.fhs) : s'.rows = s.rows := by
  have hoccupied : ∀ (s : Store) t r, s.occupied t r = ((s.fhs t).map (·.contents)).any (·.isRecord r) := by
    intro s t r
    cases hfh : s.fhs t <;> simp only [occupied, hfh] <;> rfl
  have hslot : ∀ (s : Store) t r, s.slot t r = ((s.fhs t).map (·.contents)).map (·.record r) := by
    intro s t r
    cases hfh : s.fhs t <;> simp only [slot, hfh] <;> rfl
  funext at_
  unfold rows
  rw [hoccupied, hoccupied, hslot, hslot, h at_.1]

/-- A commit changes timestamps only. -/
theorem Store.rows_commit : (s.commit txn).rows = s.rows := by
  funext at_
  unfold rows
  rw [commit_restamped.occupied]
  rcases commit_slot s txn at_.1 at_.2 with ⟨hsame, -⟩ | ⟨rec_, hrec, -, hnew⟩
  · rw [hsame]
  · rw [hrec, hnew]
    rfl

theorem Store.Put.rows {rec_ : RmRecord} (h : s.Put s' tab rid rec_ true) :
    s'.rows = Function.update s.rows (tab, rid) (some (rec_.tupleMeta.isDeleted, rec_.row.bytes)) := by
  funext at_
  obtain ⟨t, r⟩ := at_
  unfold Store.rows
  rw [h.occupied, h.slot]
  by_cases hat : t = tab ∧ r = rid
  · obtain ⟨rfl, rfl⟩ := hat
    simp only [and_self, if_true, Function.update_self]
    rfl
  · have hne : (t, r) ≠ (tab, rid) := by simpa using hat
    rw [if_neg hat, if_neg hat, Function.update_of_ne hne]

end rows

/-! ### The rows that an UPDATE writes -/

/-- What an UPDATE that keeps all index keys writes until it throws: a slot and the new data in it. -/
def writtenRows (db : Database) (txn : Transaction) (tab : String) (tabMeta : TabMeta) (setClauses : List SetClause) :
    List Rid → List (Rid × Bytes)
  | [] => []
  | rid :: rids =>
    match rowUpdate db txn tab tabMeta setClauses rid with
    | .error _ => []
    | .ok none => writtenRows db txn tab tabMeta setClauses rids
    | .ok (some change) => (rid, change.2) :: writtenRows db txn tab tabMeta setClauses rids

/-- The rows after these writes; a row that is written is not deleted. -/
def asWrites (tab : String) (written : List (Rid × Bytes)) : List ((String × Rid) × Option (Bool × Bytes)) :=
  written.map fun w => ((tab, w.1), some (false, w.2))

section update
variable {txn : Transaction} {db db' : Database} {tab : String} {tabMeta : TabMeta} {setClauses : List SetClause}
  {rids : List Rid}

theorem writtenRows_sublist : ((writtenRows db txn tab tabMeta setClauses rids).map Prod.fst).Sublist rids := by
  induction rids with
  | nil => exact .slnil
  | cons rid rids ih =>
    unfold writtenRows
    split
    · exact List.nil_sublist _
    · exact ih.cons rid
    · exact ih.cons_cons rid

theorem writtenRows_congr
    (h : ∀ rid ∈ rids, rowUpdate db' txn tab tabMeta setClauses rid = rowUpdate db txn tab tabMeta setClauses rid) :
    writtenRows db' txn tab tabMeta setClauses rids = writtenRows db txn tab tabMeta setClauses rids := by
  induction rids with
  | nil => rfl
  | cons rid rids ih =>
    unfold writtenRows
    rw [h rid List.mem_cons_self, ih fun r hr => h r (List.mem_cons_of_mem rid hr)]

theorem asWrites_nodup (db : Database) (txn : Transaction) (tab : String) (tabMeta : TabMeta)
    (setClauses : List SetClause) (h : rids.Nodup) :
    ((asWrites tab (writtenRows db txn tab tabMeta setClauses rids)).map Prod.fst).Nodup := by
  have hrids : ((writtenRows db txn tab tabMeta setClauses rids).map Prod.fst).Nodup :=
    writtenRows_sublist.nodup h
  have hplaces := hrids.map (Prod.mk_right_injective tab)
  unfold asWrites
  rw [List.map_map] at hplaces ⊢
  exact hplaces

private theorem hasPage_of_occupied {rid : Rid} (h : db.store.occupied tab rid = true) :
    db.store.hasPage tab rid.pageNo := by
  unfold Store.occupied at h
  obtain ⟨fh, hfh, hrecord⟩ := Option.any_eq_true _ _ |>.mp h
  exact ⟨fh, hfh, (RmFileHandle.isRecord_iff.mp hrecord).1⟩

/-- The rounds of the loop up to the one that throws write what was found out before the first of them. -/
theorem updateRows_rows {r : Except DbError Unit} (hnodup : rids.Nodup) (hc : db.store.txnMgr.Chained)
    (hruns : db.store.Runs txn) (htab : db.tabs tab = some tabMeta)
    (hused : ∀ rid ∈ rids, db.store.occupied tab rid = true)
    (hkeys : ∀ change ∈ rowUpdates db txn tab tabMeta setClauses rids,
      ∀ index ∈ tabMeta.indexes, index.key change.2 = index.key change.1)
    (hrun : runFrom (rids.forM (updateRow txn tab tabMeta setClauses)) db = (r, db')) (hup : r ≠ .error .crash) :
    db'.store.rows = writeAll (asWrites tab (writtenRows db txn tab tabMeta setClauses rids)) db.store.rows := by
  induction rids generalizing db with
  | nil =>
    obtain ⟨-, rfl⟩ := Prod.mk.inj hrun
    rfl
  | cons rid rids ih =>
    obtain ⟨hnot, hnodup⟩ := List.nodup_cons.mp hnodup
    unfold rowUpdates at hkeys
    have hrow := updateRow_outcome fun change (hchange : rowUpdate db txn tab tabMeta setClauses rid = _) => by
      rw [hchange] at hkeys
      exact hkeys change List.mem_cons_self
    have hsteps :
        Steps txn tab (· = rid) False db.store db (runFrom (updateRow txn tab tabMeta setClauses rid) db).2 := by
      apply updateRow_steps
      · rfl
      · exact htab
    have hstopped : ∀ {e : DbError}, (∃ e', rowUpdate db txn tab tabMeta setClauses rid = .error e') ∨ e = .crash →
        r = .error e → writtenRows db txn tab tabMeta setClauses (rid :: rids) = [] := by
      intro e hstop he
      obtain ⟨e', hrefused⟩ := hstop.resolve_right fun hcrash => hup (by rw [he, hcrash])
      unfold writtenRows
      rw [hrefused]
    rw [runFrom_forM_cons] at hrun
    generalize runFrom (updateRow txn tab tabMeta setClauses rid) db = out at hrow hsteps hrun
    obtain ⟨out, mid⟩ := out
    have hmoved := hsteps.2 hruns
    have hrest : mid.ihs = db.ihs → ∀ r ∈ rids,
        rowUpdate mid txn tab tabMeta setClauses r = rowUpdate db txn tab tabMeta setClauses r :=
      fun hihs r hr => rowUpdate_congr hihs hmoved hc (fun heq : r = rid => hnot (heq ▸ hr))
        (hasPage_of_occupied (hused r (List.mem_cons_of_mem rid hr)))
    cases hrow with
    | stopped hstop =>
      obtain ⟨hr, rfl⟩ := Prod.mk.inj hrun
      rw [hstopped hstop hr.symm]
      rfl
    | stoppedLogged log hstop =>
      obtain ⟨hr, rfl⟩ := Prod.mk.inj hrun
      rw [hstopped hstop hr.symm]
      exact Store.rows_congr rfl
    | skipped hskip =>
      rw [hskip] at hkeys
      unfold writtenRows
      rw [hskip]
      exact ih hnodup hc hruns htab (fun r hr => hused r (List.mem_cons_of_mem rid hr)) hkeys hrun
    | @written fh change log hwrite hfh hpage =>
      have hput := Store.installVersion_put (s := db.store.appendUndoLog txn log) hfh hpage txn .updateTuple
        (db.store.txnMgr.nextUndoLink txn.txnId) (updatedRecord txn tab rid change.2)
      have hfirst : (db.store.appendUndoLog txn log).occupied tab rid = true := hused rid List.mem_cons_self
      rw [hfirst] at hput
      rw [hwrite] at hkeys
      have hih := ih hnodup (StmtSteps.chained hmoved hc) (StmtSteps.runs hmoved hruns) htab (fun r hr => ?_)
        (fun change' hchange' => ?_) hrun
      · unfold writtenRows
        rw [hwrite, hih, hput.rows, writtenRows_congr (hrest rfl)]
        rfl
      · rw [hput.occupied]
        split
        · rfl
        · exact hused r (List.mem_cons_of_mem rid hr)
      · rw [rowUpdates_congr (hrest rfl)] at hchange'
        exact hkeys change' (List.mem_cons_of_mem change hchange')

end update

/-! ### UPDATE in autocommit mode -/

/-- Every row that the UPDATE comes to write keeps its index keys. -/
def KeepsKeys (db : Database) (tab : String) (setClauses : List SetClause) (conds : Bytes → Bool) : Prop :=
  ∀ txn ∈ db.ownTxn, (Statement.update tab setClauses conds).Undoable db.begun txn

/-- Every row that the UPDATE comes to write gets the data that it has. -/
def RewritesRows (db : Database) (tab : String) (setClauses : List SetClause) (conds : Bytes → Bool) : Prop :=
  ∀ txn ∈ db.ownTxn, ∀ tabMeta ∈ db.tabs tab, ∀ fh ∈ db.store.fhs tab,
    ∀ w ∈ writtenRows db.begun txn tab tabMeta setClauses (updateRids fh conds),
      db.store.rows (tab, w.1) = some (false, w.2)

section autocommit
variable {db₀ db db' : Database} {n : ℤ} {allowed : Database → Action → Prop} {txn : Transaction} {tab : String}
  {setClauses : List SetClause} {conds : Bytes → Bool} {r : Except DbError Unit} {e : DbError}

private theorem ownTxn_runs (htxn : db.ownTxn = some txn) :
    txn.txnId = db.store.txnMgr.nextTxnId ∧ db.begun.store.Runs txn := by
  obtain ⟨hget, -⟩ := activeTxn_iff.mp htxn
  have hid := (mem_of_getTransaction hget).2
  exact ⟨hid, txn, by rw [hid, hget], rfl, rfl⟩

/-- The rows after the statement, before the handler has done anything. -/
theorem exec_update_rows (hc : db.begun.store.txnMgr.Chained) (hkeys : KeepsKeys db tab setClauses conds)
    (htxn : db.ownTxn = some txn)
    (hrun : runFrom ((Statement.update tab setClauses conds).exec txn) db.begun = (r, db')) (hup : r ≠ .error .crash) :
    db'.store.rows = db.store.rows ↔ RewritesRows db tab setClauses conds := by
  obtain ⟨-, hruns⟩ := ownTxn_runs htxn
  unfold Statement.exec execUpdate at hrun
  simp only [runFrom_bind, runFrom_getTable] at hrun
  cases htab : db.begun.tabs tab with
  | none =>
    rw [htab] at hrun
    obtain ⟨-, rfl⟩ := Prod.mk.inj hrun
    refine iff_of_true (Store.rows_congr rfl) fun _ _ tabMeta hmeta => ?_
    cases htab.symm.trans hmeta
  | some tabMeta =>
    rw [htab] at hrun
    simp only [runFrom_fileHandle] at hrun
    cases hfh : db.begun.store.fhs tab with
    | none =>
      rw [hfh] at hrun
      obtain ⟨rfl, -⟩ := Prod.mk.inj hrun
      exact absurd rfl hup
    | some fh =>
      rw [hfh] at hrun
      have hnodup : (updateRids fh conds).Nodup := (RmFileHandle.scanRids_nodup fh).filter _
      have hused : ∀ rid ∈ updateRids fh conds, db.begun.store.occupied tab rid = true := by
        intro rid hrid
        rw [Store.occupied_eq hfh]
        exact RmFileHandle.mem_scanRids (List.mem_of_mem_filter hrid)
      have hrows := updateRows_rows hnodup hc hruns htab hused (hkeys txn htxn tabMeta htab fh hfh) hrun hup
      have hbegun : db.begun.store.rows = db.store.rows := Store.rows_congr rfl
      rw [hrows, ← hbegun, writeAll_eq_iff (asWrites_nodup _ _ _ _ _ hnodup), hbegun]
      unfold asWrites
      rw [List.forall_mem_map]
      constructor
      · intro hsame txn' htxn' tabMeta' htab' fh' hfh'
        obtain rfl : txn = txn' := Option.some.inj (htxn.symm.trans htxn')
        obtain rfl : tabMeta = tabMeta' := Option.some.inj (htab.symm.trans htab')
        obtain rfl : fh = fh' := Option.some.inj (hfh.symm.trans hfh')
        exact hsame
      · intro hsame
        exact hsame txn htxn tabMeta htab fh hfh

theorem autocommit_eq (hrun : db.autocommit (.update tab setClauses conds) = some (r, db')) :
    ∃ txn db₁ cur, db.ownTxn = some txn ∧
      runFrom ((Statement.update tab setClauses conds).exec txn) db.begun = (r, db₁) ∧
      r ≠ .error .crash ∧ db₁.store.txnMgr.getTransaction txn.txnId = some cur ∧
      ((r = .error .transactionAbort ∧ ∃ store, db₁.store.abort cur = some store ∧
          db' = { db₁ with store := (store.deleteTransaction txn.txnId).begin }) ∨
        (r ≠ .error .transactionAbort ∧ db' = { db₁ with store := db₁.store.commit cur })) := by
  simp only [Database.autocommit, Option.bind_eq_bind, Option.bind_eq_some_iff] at hrun
  obtain ⟨txn, htxn, cur, hcur, hrun⟩ := hrun
  obtain ⟨hid, -⟩ := ownTxn_runs htxn
  rw [← hid] at hcur hrun
  generalize hout : runFrom ((Statement.update tab setClauses conds).exec txn) db.begun = out at hcur hrun
  obtain ⟨result, db₁⟩ := out
  dsimp only at hcur hrun
  split at hrun
  · cases hrun
  · obtain ⟨store, habort, heq⟩ := Option.bind_eq_some_iff.mp hrun
    obtain ⟨rfl, rfl⟩ := Prod.mk.inj (Option.some.inj heq)
    exact ⟨txn, db₁, cur, htxn, hout, nofun, hcur, .inl ⟨rfl, store, habort, rfl⟩⟩
  · rename_i hcrash habort
    obtain ⟨rfl, rfl⟩ := Prod.mk.inj (Option.some.inj hrun)
    exact ⟨txn, db₁, cur, htxn, hout, hcrash, hcur, .inr ⟨habort, rfl⟩⟩

theorem update_unchanged_iff (hstart : db₀.Started n) (hreach : db₀.Reaches allowed db)
    (hkeys : KeepsKeys db tab setClauses conds)
    (hrun : db.autocommit (.update tab setClauses conds) = some (.error e, db')) :
    Unchanged db db' ↔ e = .transactionAbort ∨ RewritesRows db tab setClauses conds := by
  have hmarks : db.store.txnMgr.Marks := hreach.marks (hstart.txnMgr ▸ marks_init n)
  obtain ⟨txn, db₁, cur, htxn, hexec, hup, hcur, hend⟩ := autocommit_eq hrun
  obtain ⟨hid, hruns⟩ := ownTxn_runs htxn
  have hundone := exec_undone db.store.fhs hmarks.begin.toChained hruns (hkeys txn htxn)
  rw [hexec] at hundone
  have hihs : db₁.ihs = db.ihs := hundone.ihs
  obtain ⟨hthrown, store, hstore, rfl⟩ | ⟨hthrown, rfl⟩ := hend
  · refine iff_of_true ?_ (.inl (Except.error.inj hthrown))
    have hrestores := hundone.restores (hid ▸ restores_begin hmarks.toChained.ids)
    have hactive : db₁.activeTxn txn.txnId = some cur := by
      have hsteps := ((Statement.update tab setClauses conds).exec_steps db.begun txn).2 hruns
      rw [hexec] at hsteps
      obtain ⟨cur', hcur', -, hstate⟩ := StmtSteps.runs hsteps hruns
      obtain rfl : cur = cur' := Option.some.inj (hcur.symm.trans hcur')
      obtain ⟨-, hactive⟩ := activeTxn_iff.mp htxn
      refine activeTxn_iff.mpr ⟨hcur, ?_⟩
      unfold Transaction.isActive at hactive ⊢
      rwa [hstate]
    have hstep : db₁.step (.abort txn.txnId) = some { db₁ with store := store } := by
      simp only [step, hactive, hstore, Option.bind_eq_bind, Option.bind_some]
      rfl
    obtain ⟨hfiles, -⟩ := restores_abort hrestores hstep
    have hrows : store.rows = db.store.rows := Store.rows_contents hfiles
    apply (Unchanged.of_ihs ?_).mpr
    · exact hrows
    · exact hihs
  · have hrows := exec_update_rows hmarks.begin.toChained hkeys htxn hexec hup
    have hsame : Unchanged db { db₁ with store := db₁.store.commit cur } ↔
        (db₁.store.commit cur).rows = db.store.rows := by
      apply Unchanged.of_ihs
      exact hihs
    rw [hsame, Store.rows_commit, hrows, or_iff_right]
    rintro rfl
    exact hthrown rfl

end autocommit

instance (db : Database) (tab : String) (setClauses : List SetClause) (conds : Bytes → Bool) :
    Decidable (KeepsKeys db tab setClauses conds) := by
  unfold KeepsKeys
  infer_instance

instance (db : Database) (tab : String) (setClauses : List SetClause) (conds : Bytes → Bool) :
    Decidable (RewritesRows db tab setClauses conds) := by
  unfold RewritesRows
  infer_instance

/-- `UPDATE .. SET a = val` on a table of `emptyTables`. -/
def setA (tab : String) (val : BitVec 32) : Statement :=
  .update tab [⟨"a", fun _ => .ok (.int val)⟩] fun _ => true

/-- Two rows with the given values of a unique column `a`. -/
def twoRows (first second : BitVec 32) : Option Database :=
  (emptyTables 1 ["t"]).run (fun _ _ => True) [.createIndex "t" ["a"] true, .begin,
    .stmt 0 (.insert "t" [.int first, .int 5]), .stmt 0 (.insert "t" [.int second, .int 5]), .commit 0]

/-- The first row has the value already, and the second one may not have it. -/
theorem update_unchanged_twoRows : ∃ db db', twoRows 3 2 = some db ∧
    db.autocommit (setA "t" 3) = some (.error (.rmdb .uniqueIndexViolation), db') ∧ Unchanged db db' := by
  have hrun : ((twoRows 3 2).any fun db =>
      decide (KeepsKeys db "t" [⟨"a", fun _ => .ok (.int 3)⟩] fun _ => true) &&
      decide (RewritesRows db "t" [⟨"a", fun _ => .ok (.int 3)⟩] fun _ => true) &&
      (db.autocommit (setA "t" 3)).any fun out =>
        match out.1 with
        | .ok _ => false
        | .error e => e = .rmdb .uniqueIndexViolation) = true := by decide +kernel
  simp only [Option.any_eq_true, Bool.and_eq_true, decide_eq_true_eq] at hrun
  obtain ⟨db, hdb, ⟨hkeys, hrewrites⟩, ⟨r, db'⟩, hout, hthrown⟩ := hrun
  split at hthrown
  · cases hthrown
  · rename_i e he
    obtain rfl : r = .error (.rmdb .uniqueIndexViolation) := he.trans (by rw [of_decide_eq_true hthrown])
    have hreach : (emptyTables 1 ["t"]).Reaches (fun _ _ => True) db := reaches_of_run hdb
    exact ⟨db, db', hdb, hout, (update_unchanged_iff (emptyTables_started (by decide) ["t"]) hreach hkeys hout).mpr
      (.inr hrewrites)⟩

/-- The first row stays changed, with its index entry, when the second one violates the index. -/
theorem not_update_unchanged : ¬∀ (db₀ db db' : Database) (n : ℤ) (tab : String) (setClauses : List SetClause)
    (conds : Bytes → Bool) (e : DbError), db₀.Started n → db₀.Reaches (fun _ _ => True) db →
    db.autocommit (.update tab setClauses conds) = some (.error e, db') → Unchanged db db' := by
  intro hclaim
  have hrun : ((twoRows 1 2).any fun db => (db.autocommit (setA "t" 3)).any fun out =>
      (match out.1 with
        | .ok _ => false
        | .error e => e = .rmdb .uniqueIndexViolation) &&
      out.2.store.rows ("t", ⟨1, 0⟩) ≠ db.store.rows ("t", ⟨1, 0⟩)) = true := by decide +kernel
  simp only [Option.any_eq_true, Bool.and_eq_true, decide_eq_true_eq] at hrun
  obtain ⟨db, hdb, ⟨r, db'⟩, hout, hthrown, hchanged⟩ := hrun
  split at hthrown
  · cases hthrown
  · rename_i e he
    obtain rfl : r = .error e := he
    have hreach : (emptyTables 1 ["t"]).Reaches (fun _ _ => True) db := reaches_of_run hdb
    have hsame := hclaim _ db db' 1 "t" _ _ e (emptyTables_started (by decide) ["t"]) hreach hout
    rw [hsame.rows] at hchanged
    exact hchanged rfl

end Rmdb
