import Rmdb.System.Ownership

/-! Rollback writes of a transaction against the writes of the others: an abort first marks its
transaction and then puts the slots back one by one, and statements may come in between. -/
namespace Rmdb

open Database

/-- Statements and commits of any transaction, and the single steps of aborts. -/
def Interleaving : Action → Prop
  | .begin | .stmt _ _ | .commit _ | .markAborted _ | .rollbackOne _ | .createIndex _ _ _ => True
  | .abort _ | .garbageCollection | .createTable _ _ | .dropTable _ => False

instance (action : Action) : Decidable (Interleaving action) :=
  match action with
  | .begin | .stmt _ _ | .commit _ | .markAborted _ | .rollbackOne _ | .createIndex _ _ _ => isTrue trivial
  | .abort _ | .garbageCollection | .createTable _ _ | .dropTable _ => isFalse id

/-- What the step of a statement must heed in a state; other steps heed nothing. -/
def Heeds (db : Database) : Action → Prop
  | .stmt txnId stmt => ∀ txn ∈ db.activeTxn txnId,
    db.store.Heeds txn stmt.tab (· ∈ stmt.targets db txn) stmt.isInsert
  | _ => True

instance (s : Store) (txn : Transaction) (tab : String) (target : List Rid) (inserting : Prop)
    [Decidable inserting] : Decidable (s.Heeds txn tab (· ∈ target) inserting) :=
  decidable_of_iff
    ((∀ other ∈ s.txnMgr.txnMap, other.txnId ≠ txn.txnId →
        other.state = .aborted ∨ other.isActive = true ∧ other.startTs < 1 →
        ∀ rid ∈ target, ¬other.hasWritten tab rid) ∧
      (inserting → ∀ other ∈ s.txnMgr.txnMap, other.isActive = true →
        ∀ rid ∈ target, ¬other.hasWritten tab rid))
    ⟨fun h => ⟨h.1, h.2⟩, fun h => ⟨h.foreign, h.free⟩⟩

instance (db : Database) (action : Action) : Decidable (Heeds db action) :=
  match action with
  | .stmt _ _ => by dsimp only [Heeds]; infer_instance
  | .begin | .commit _ | .abort _ | .markAborted _ | .rollbackOne _ | .garbageCollection | .createTable _ _
  | .dropTable _ | .createIndex _ _ _ => isTrue trivial

namespace Database

variable {db db' : Database} {txnId : ℤ}

/-- The slot that the next rollback write of a transaction goes to holds its own record. -/
def RollsBackOwn (db : Database) (txnId : ℤ) : Prop :=
  ∃ txn last rec_, db.store.txnMgr.getTransaction txnId = some txn ∧
    txn.writeSet.getLast? = some last ∧ db.store.slot last.tabName last.rid = some rec_ ∧
    rec_.writer = txnId

theorem Started.owned {n : ℤ} (h : db.Started n) : db.store.Owned where
  ids := h.inv.toIds
  pending txn htxn := by
    rw [h.txnMgr] at htxn
    cases htxn
  images txn htxn := by
    rw [h.txnMgr] at htxn
    cases htxn
  events w hw := by
    rw [h.history] at hw
    cases hw
  latest txn htxn := by
    rw [h.txnMgr] at htxn
    cases htxn

theorem owned_stmt {stmt : Statement} (h : db.store.Owned)
    (hstep : db.step (.stmt txnId stmt) = some db') (hheeds : Heeds db (.stmt txnId stmt)) :
    db'.store.Owned := by
  obtain ⟨txn, htxn, -, hsteps⟩ := step_stmt hstep
  exact h.stmtSteps hsteps (activeTxn_mem htxn).2.2 (hheeds txn htxn)

theorem owned_step {action : Action} (h : db.store.Owned) (hstep : db.step action = some db')
    (hallowed : Interleaving action) (hheeds : Heeds db action) : db'.store.Owned := by
  cases action with
  | begin =>
    cases hstep
    exact h.begin
  | stmt txnId stmt => exact owned_stmt h hstep hheeds
  | commit txnId =>
    obtain ⟨txn, htxn, rfl⟩ := step_commit hstep
    exact h.commit (activeTxn_mem htxn).1
  | markAborted txnId =>
    obtain ⟨txn, htxn, rfl⟩ := step_markAborted hstep
    exact h.markAborted (activeTxn_mem htxn).2.2 (activeTxn_mem htxn).1
  | rollbackOne txnId =>
    obtain ⟨txn, store, htxn, haborted, hroll, rfl⟩ := step_rollbackOne hstep
    exact h.rollbackOne htxn haborted hroll
  | createIndex tab colNames unique =>
    rw [step_createIndex hstep]
    exact h
  | abort txnId => exact hallowed.elim
  | garbageCollection => exact hallowed.elim
  | createTable tab colDefs => exact hallowed.elim
  | dropTable tab => exact hallowed.elim

end Database

/-- Where all statements leave the open rollbacks alone, rollbacks leave all others alone. -/
theorem rollback_own_record {db₀ db db' : Database} {n txnId : ℤ} (hstart : db₀.Started n)
    (hrun : db₀.Reaches (fun db action => Interleaving action ∧ Heeds db action) db)
    (hstep : db.step (.rollbackOne txnId) = some db') : db.RollsBackOwn txnId := by
  have howned : db.store.Owned := by
    clear hstep
    induction hrun with
    | refl => exact hstart.owned
    | tail _ hmove ih =>
      obtain ⟨action, ⟨hallowed, hheeds⟩, hmove⟩ := hmove
      exact owned_step ih hmove hallowed hheeds
  obtain ⟨txn, store, htxn, haborted, hroll, -⟩ := step_rollbackOne hstep
  obtain ⟨cur, last, -, hcur, hlast, -⟩ := Store.rollbackOne_eq hroll
  obtain rfl : cur = txn := Option.some.inj (hcur.symm.trans htxn)
  obtain ⟨-, rec_, hrec, hwriter⟩ := howned.rollback_own htxn (by simp [haborted]) hlast
  exact ⟨cur, last, rec_, htxn, hlast, hrec, hwriter⟩

/-- `UPDATE .. SET b = val WHERE a = key` on a table of `emptyTables`. -/
def updateB (tab : String) (key val : BitVec 32) : Statement :=
  .update tab [⟨"b", fun _ => .ok (.int val)⟩] fun data => readWord (data.take 4) = key

/-- Transaction 1 rolls an update back while transaction 2 writes elsewhere. -/
theorem rollback_own_record_update :
    ∃ db db', (emptyTables 1 ["t"]).run (fun db action => Interleaving action ∧ Heeds db action)
        [.begin, .stmt 0 (.insert "t" [.int 1, .int 5]), .commit 0, .begin,
          .stmt 1 (updateB "t" 1 7), .begin, .markAborted 1,
          .stmt 2 (.insert "t" [.int 2, .int 6])] = some db ∧
      db.step (.rollbackOne 1) = some db' ∧ db.RollsBackOwn 1 := by
  obtain ⟨db, hrun, db', hstep⟩ : ∃ db, (emptyTables 1 ["t"]).run
        (fun db action => Interleaving action ∧ Heeds db action)
        [.begin, .stmt 0 (.insert "t" [.int 1, .int 5]), .commit 0, .begin,
          .stmt 1 (updateB "t" 1 7), .begin, .markAborted 1,
          .stmt 2 (.insert "t" [.int 2, .int 6])] = some db ∧
      ∃ db', db.step (.rollbackOne 1) = some db' := ⟨_, rfl, _, rfl⟩
  exact ⟨db, db', hrun, hstep, rollback_own_record (emptyTables_started (n := 1) (by decide) ["t"])
    (reaches_of_run hrun) hstep⟩

/-- Transaction 2 may overwrite what the aborted transaction 1 has yet to put back, and loses its
update to the rollback. -/
theorem not_rollback_own_record : ¬∀ (db₀ db db' : Database) (n txnId : ℤ), db₀.Started n →
    db₀.Reaches (fun _ action => Interleaving action) db →
    db.step (.rollbackOne txnId) = some db' → db.RollsBackOwn txnId := by
  intro hclaim
  obtain ⟨db, hrun, db', hstep, txn, last, rec_, htxn, hlast, hrec, hwriter⟩ :
      ∃ db, (emptyTables 1 ["t"]).run (fun _ action => Interleaving action)
        [.begin, .stmt 0 (.insert "t" [.int 1, .int 5]), .commit 0, .begin,
          .stmt 1 (updateB "t" 1 7), .begin, .markAborted 1, .stmt 2 (updateB "t" 1 8)] = some db ∧
      ∃ db', db.step (.rollbackOne 1) = some db' ∧ ∃ txn last rec_,
        db.store.txnMgr.getTransaction 1 = some txn ∧ txn.writeSet.getLast? = some last ∧
        db.store.slot last.tabName last.rid = some rec_ ∧ rec_.writer = 2 :=
    ⟨_, rfl, _, rfl, _, _, _, rfl, rfl, rfl, rfl⟩
  obtain ⟨txn', last', rec', htxn', hlast', hrec', hwriter'⟩ := hclaim _ db db' 1 1
    (emptyTables_started (by decide) ["t"]) (reaches_of_run hrun) hstep
  obtain rfl : txn = txn' := Option.some.inj (htxn.symm.trans htxn')
  obtain rfl : last = last' := Option.some.inj (hlast.symm.trans hlast')
  obtain rfl : rec_ = rec' := Option.some.inj (hrec.symm.trans hrec')
  rw [hwriter] at hwriter'
  cases hwriter'

end Rmdb
