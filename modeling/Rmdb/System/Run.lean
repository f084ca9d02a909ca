import Rmdb.Execution.Outcome
import Rmdb.System.SmManager

/-! Runs of the whole system: statements, commits, aborts and changes of the schema in any
order, each as one step. An abort can also be taken apart into its steps. -/
namespace Rmdb

open Program

inductive Action where
  | begin
  | stmt (txnId : ℤ) (stmt : Statement)
  | commit (txnId : ℤ)
  | abort (txnId : ℤ)
  /-- The first part of an abort. -/
  | markAborted (txnId : ℤ)
  /-- One round of the rollback loop of an abort that has begun. -/
  | rollbackOne (txnId : ℤ)
  | garbageCollection
  | createTable (tab : String) (colDefs : List ColDef)
  | dropTable (tab : String)
  | createIndex (tab : String) (colNames : List String) (unique : Bool)

namespace Database

/-- The state that a program leaves, unless it has taken the server down. -/
def runProgram (db : Database) (program : DbM Unit) : Option Database :=
  match runFrom program db with
  | (.error .crash, _) => none
  | (_, db) => some db

/-- A transaction that may still run statements. -/
def activeTxn (db : Database) (txnId : ℤ) : Option Transaction :=
  (db.store.txnMgr.getTransaction txnId).filter (·.isActive)

/-- One step; `none` where the step cannot be made or the server goes down in it. -/
def step (db : Database) : Action → Option Database
  | .begin => some { db with store := db.store.begin }
  | .stmt txnId stmt => do
    let txn ← db.activeTxn txnId
    db.runProgram (stmt.exec txn)
  | .commit txnId => do
    let txn ← db.activeTxn txnId
    return { db with store := db.store.commit txn }
  | .abort txnId => do
    let txn ← db.activeTxn txnId
    let store ← db.store.abort txn
    return { db with store }
  | .markAborted txnId => do
    let txn ← db.activeTxn txnId
    return { db with store := db.store.markAborted txn }
  | .rollbackOne txnId => do
    let _ ← (db.store.txnMgr.getTransaction txnId).filter (·.state = .aborted)
    let store ← db.store.rollbackOne txnId
    return { db with store }
  | .garbageCollection => some { db with store := db.store.garbageCollection }
  | .createTable tab colDefs => db.runProgram (createTable tab colDefs)
  | .dropTable tab => db.runProgram (dropTable tab)
  | .createIndex tab colNames unique => db.runProgram (createIndex tab colNames unique)

/-- A state that a run reaches, each step of which is allowed in the state before it. -/
def Reaches (allowed : Database → Action → Prop) : Database → Database → Prop :=
  Relation.ReflTransGen fun db db' => ∃ action, allowed db action ∧ db.step action = some db'

/-- A server that was just started: the rows in its files were written by nobody it knows. -/
structure Started (db : Database) (nextTimestamp : ℤ) : Prop where
  nonneg : 0 ≤ nextTimestamp
  txnMgr : db.store.txnMgr = .init nextTimestamp
  history : db.store.history = []
  unwritten : ∀ tab rid rec_, db.store.slot tab rid = some rec_ →
    rec_.writer = invalidTxnId ∧ rec_.row.writer = invalidTxnId

/-- The state at the end of a list of steps, where all of them can be made and are allowed. -/
def run (allowed : Database → Action → Prop) [∀ db action, Decidable (allowed db action)] :
    Database → List Action → Option Database
  | db, [] => some db
  | db, action :: actions =>
    if allowed db action then (db.step action).bind fun db => run allowed db actions else none

variable {db db' : Database} {txnId : ℤ} {txn : Transaction}

theorem run_cons {allowed : Database → Action → Prop} [∀ db action, Decidable (allowed db action)]
    {action : Action} {actions : List Action} (h : db.run allowed (action :: actions) = some db') :
    allowed db action ∧ ∃ mid, db.step action = some mid ∧ mid.run allowed actions = some db' := by
  unfold run at h
  split at h
  · rename_i hallowed
    exact ⟨hallowed, Option.bind_eq_some_iff.mp h⟩
  · cases h

theorem reaches_of_run {allowed : Database → Action → Prop}
    [∀ db action, Decidable (allowed db action)] {actions : List Action}
    (h : db.run allowed actions = some db') : db.Reaches allowed db' := by
  induction actions generalizing db with
  | nil =>
    cases h
    exact .refl
  | cons action actions ih =>
    obtain ⟨hallowed, mid, hstep, hrun⟩ := run_cons h
    exact .head ⟨action, hallowed, hstep⟩ (ih hrun)

theorem activeTxn_iff : db.activeTxn txnId = some txn ↔
    db.store.txnMgr.getTransaction txnId = some txn ∧ txn.isActive = true := by
  simp [activeTxn, Option.filter_eq_some_iff]

theorem runProgram_eq {program : DbM Unit} (h : db.runProgram program = some db') :
    (runFrom program db).2 = db' := by
  unfold runProgram at h
  split at h
  · cases h
  · rename_i heq
    rw [heq]
    exact Option.some.inj h

/-- What a statement does, whatever its outcome. -/
theorem step_stmt {stmt : Statement} (h : db.step (.stmt txnId stmt) = some db') :
    ∃ txn, db.activeTxn txnId = some txn ∧ db'.tabs = db.tabs ∧
      StmtSteps db.tabs txn stmt.tab (· ∈ stmt.targets db txn) stmt.isInsert db.store db.store db'.store := by
  simp only [step, Option.bind_eq_bind, Option.bind_eq_some_iff] at h
  obtain ⟨txn, htxn, hrun⟩ := h
  have hsteps := stmt.exec_steps db txn
  rw [runProgram_eq hrun] at hsteps
  obtain ⟨hget, -⟩ := activeTxn_iff.mp htxn
  have hid := (TransactionManager.mem_of_getTransaction hget).2
  exact ⟨txn, htxn, hsteps.1, hsteps.2 ⟨txn, by rw [hid, hget], rfl, rfl⟩⟩

theorem step_commit (h : db.step (.commit txnId) = some db') :
    ∃ txn, db.activeTxn txnId = some txn ∧ db' = { db with store := db.store.commit txn } := by
  simp only [step, Option.bind_eq_bind, Option.bind_eq_some_iff, Option.pure_def,
    Option.some.injEq] at h
  obtain ⟨txn, htxn, rfl⟩ := h
  exact ⟨txn, htxn, rfl⟩

theorem step_abort (h : db.step (.abort txnId) = some db') :
    ∃ txn store, db.activeTxn txnId = some txn ∧ db.store.abort txn = some store ∧
      db' = { db with store } := by
  simp only [step, Option.bind_eq_bind, Option.bind_eq_some_iff, Option.pure_def,
    Option.some.injEq] at h
  obtain ⟨txn, htxn, store, hstore, rfl⟩ := h
  exact ⟨txn, store, htxn, hstore, rfl⟩

theorem step_markAborted (h : db.step (.markAborted txnId) = some db') :
    ∃ txn, db.activeTxn txnId = some txn ∧ db' = { db with store := db.store.markAborted txn } := by
  simp only [step, Option.bind_eq_bind, Option.bind_eq_some_iff, Option.pure_def,
    Option.some.injEq] at h
  obtain ⟨txn, htxn, rfl⟩ := h
  exact ⟨txn, htxn, rfl⟩

theorem step_rollbackOne (h : db.step (.rollbackOne txnId) = some db') :
    ∃ txn store, db.store.txnMgr.getTransaction txnId = some txn ∧ txn.state = .aborted ∧
      db.store.rollbackOne txnId = some store ∧ db' = { db with store } := by
  simp only [step, Option.bind_eq_bind, Option.bind_eq_some_iff, Option.pure_def,
    Option.some.injEq, Option.filter_eq_some_iff, decide_eq_true_eq] at h
  obtain ⟨txn, ⟨htxn, hstate⟩, store, hstore, rfl⟩ := h
  exact ⟨txn, store, htxn, hstate, hstore, rfl⟩

/-! ### Changes of the schema -/

/-- A new table starts with an empty file; when an error stops the program, nothing changes. -/
theorem step_createTable {tab : String} {colDefs : List ColDef}
    (h : db.step (.createTable tab colDefs) = some db') : db' = db ∨
      db.tabs tab = none ∧ ∃ recordSize, db'.store = db.store.setTable tab (some (.create recordSize)) := by
  have heq := runProgram_eq h
  simp only [createTable, runFrom_bind, runFrom_get] at heq
  split at heq
  · exact .inl heq.symm
  · split at heq
    · exact .inl heq.symm
    · rename_i htab
      split at heq
      · split at heq
        · exact .inl heq.symm
        · split at heq
          · exact .inl heq.symm
          · refine .inr ⟨by simpa using htab, (colDefs.map (·.len)).sum + tupleMetaSize, ?_⟩
            rw [← heq]
            rfl
      · exact .inl heq.symm

private def SameRows (db db' : Database) : Prop := db'.store = db.store

private theorem sameRows_refl (db : Database) : SameRows db db := rfl

private theorem sameRows_trans (db₁ db₂ db₃ : Database) (h : SameRows db₁ db₂)
    (h' : SameRows db₂ db₃) : SameRows db₁ db₃ := Eq.trans h' h

section createIndex

open Moves

private theorem ofIx_rows {α : Type} (x : Except IxError α) : Moves SameRows (DbM.ofIx x) :=
  ofExcept sameRows_refl _

private theorem modify_rows {f : Database → Database} (hf : ∀ db, (f db).store = db.store) :
    Moves SameRows (modify f : DbM Unit) := hf

private theorem dropIndexHandle_rows (name : String) : Moves SameRows (dropIndexHandle name) := by
  refine bind sameRows_trans (get sameRows_refl) fun db => ?_
  split
  · exact throw sameRows_refl _
  · exact modify_rows fun _ => rfl

/-- The rows go with the table, unless an index without a handle stops the program. -/
theorem step_dropTable {tab : String} (h : db.step (.dropTable tab) = some db') :
    db'.store = db.store ∨ db'.store = db.store.setTable tab none := by
  have heq := runProgram_eq h
  simp only [dropTable, runFrom_bind, runFrom_getTable] at heq
  cases htab : db.tabs tab with
  | none =>
    rw [htab] at heq
    exact .inl (congrArg Database.store heq).symm
  | some tabMeta =>
    have hrows : Moves SameRows (tabMeta.indexes.forM fun index => dropIndexHandle (getIndexName tab index)) :=
      forM sameRows_refl sameRows_trans fun _ _ => dropIndexHandle_rows _
    have hstore := hrows db
    rw [htab] at heq
    dsimp only at heq
    split at heq
    · next dropped hdropped =>
      rw [hdropped] at hstore
      refine .inr ?_
      rw [← heq, ← hstore]
      rfl
    · next dropped hdropped =>
      rw [hdropped] at hstore
      exact .inl (heq ▸ hstore)

private theorem createIndexHandle_rows (name : String) (index : IndexMeta) :
    Moves SameRows (createIndexHandle name index) := by
  refine bind sameRows_trans (get sameRows_refl) fun db => ?_
  split
  · exact throw sameRows_refl _
  · refine bind sameRows_trans (ofIx_rows _) fun ih => ?_
    exact modify_rows fun _ => rfl

private theorem fillIndex_rows (name : String) (index : IndexMeta) (fh : RmFileHandle) :
    Moves SameRows (fillIndex name index fh) := by
  refine forM sameRows_refl sameRows_trans fun rid _ => ?_
  refine bind sameRows_trans (bind sameRows_trans (get sameRows_refl) fun db => ?_) fun ih => ?_
  · cases db.ihs name with
    | none => exact throw sameRows_refl _
    | some ih => exact pure sameRows_refl _
  · refine bind sameRows_trans (ofIx_rows _) fun inserted => ?_
    exact modify_rows fun _ => rfl

private theorem refuseIndex_rows (name : String) (e : DbError) : Moves SameRows (refuseIndex name e) := by
  unfold refuseIndex
  split
  · refine bind sameRows_trans (modify_rows fun _ => rfl) fun _ => ?_
    exact throw sameRows_refl _
  · exact throw sameRows_refl _

/-- An index is built from the tables and leaves them as they are. -/
theorem step_createIndex {tab : String} {colNames : List String} {unique : Bool}
    (h : db.step (.createIndex tab colNames unique) = some db') : db'.store = db.store := by
  have hmoves : Moves SameRows (createIndex tab colNames unique) := by
    refine bind sameRows_trans (fun db => ?_) fun tabMeta => ?_
    · rw [runFrom_getTable]
      exact sameRows_refl db
    refine bind sameRows_trans (ofExcept sameRows_refl _) fun index => ?_
    refine bind sameRows_trans (createIndexHandle_rows _ _) fun _ => ?_
    refine bind sameRows_trans (modify_rows fun _ => rfl) fun _ => ?_
    refine bind sameRows_trans (fun db => ?_) fun fh => ?_
    · rw [runFrom_fileHandle]
      exact sameRows_refl db
    exact tryCatch sameRows_trans (fillIndex_rows _ _ _) (refuseIndex_rows _)
  exact runProgram_eq h ▸ hmoves db

end createIndex

/-! ### The transaction table in every run -/

theorem activeTxn_mem (h : db.activeTxn txnId = some txn) :
    txn ∈ db.store.txnMgr.txnMap ∧ txn.txnId = txnId ∧ txn.isActive = true := by
  obtain ⟨hget, hactive⟩ := activeTxn_iff.mp h
  obtain ⟨hmem, hid⟩ := TransactionManager.mem_of_getTransaction hget
  exact ⟨hmem, hid, hactive⟩

/-- Without garbage collection the table keeps its invariant and only grows. -/
theorem step_inv {action : Action} (h : db.step action = some db')
    (hgc : action ≠ .garbageCollection) (hinv : db.store.txnMgr.Inv) :
    db'.store.txnMgr.Inv ∧ db.store.txnMgr.Grows db'.store.txnMgr := by
  have of_inert : ∀ {tm : TransactionManager}, db.store.txnMgr.Inert tm →
      tm.Inv ∧ db.store.txnMgr.Grows tm := fun hi => ⟨hi.inv hinv, hi.grows⟩
  have of_mark : ∀ {txnId txn}, db.activeTxn txnId = some txn →
      (db.store.txnMgr.markAborted txn.txnId txn.startTs).Inv ∧
        db.store.txnMgr.Grows (db.store.txnMgr.markAborted txn.txnId txn.startTs) := by
    intro txnId txn htxn
    obtain ⟨hmem, -, hactive⟩ := activeTxn_mem htxn
    exact ⟨hinv.markAborted hmem rfl rfl hactive, hinv.grows_markAborted hmem hactive⟩
  cases action with
  | begin =>
    cases h
    exact ⟨hinv.begin, TransactionManager.grows_begin _⟩
  | stmt txnId stmt =>
    obtain ⟨txn, -, -, hsteps⟩ := step_stmt h
    exact of_inert hsteps.inert
  | commit txnId =>
    obtain ⟨txn, htxn, rfl⟩ := step_commit h
    obtain ⟨hmem, -, hactive⟩ := activeTxn_mem htxn
    rw [Store.commit_txnMgr]
    exact ⟨hinv.commitTxn hmem rfl hactive, hinv.grows_commit hmem hactive⟩
  | abort txnId =>
    obtain ⟨txn, store, htxn, habort, rfl⟩ := step_abort h
    obtain ⟨hmarked, hgrows⟩ := of_mark htxn
    have hinert := Store.rollbackAll_inert habort
    exact ⟨hinert.inv hmarked, hgrows.trans hinert.grows⟩
  | markAborted txnId =>
    obtain ⟨txn, htxn, rfl⟩ := step_markAborted h
    exact of_mark htxn
  | rollbackOne txnId =>
    obtain ⟨txn, store, -, -, hroll, rfl⟩ := step_rollbackOne h
    exact of_inert (Store.rollbackOne_inert hroll)
  | garbageCollection => exact absurd rfl hgc
  | createTable tab colDefs =>
    rcases step_createTable h with rfl | ⟨-, recordSize, hstore⟩
    · exact of_inert (.refl _)
    · rw [hstore]
      exact of_inert (.refl _)
  | dropTable tab =>
    rcases step_dropTable h with hsame | hstore
    · rw [hsame]
      exact of_inert (.refl _)
    · rw [hstore]
      exact of_inert (.refl _)
  | createIndex tab colNames unique =>
    rw [step_createIndex h]
    exact of_inert (.refl _)

theorem Reaches.inv {allowed : Database → Action → Prop} (h : Reaches allowed db db')
    (hgc : ∀ db action, allowed db action → action ≠ .garbageCollection)
    (hinv : db.store.txnMgr.Inv) :
    db'.store.txnMgr.Inv ∧ db.store.txnMgr.Grows db'.store.txnMgr := by
  induction h with
  | refl => exact ⟨hinv, .refl _⟩
  | tail _ hstep ih =>
    obtain ⟨action, hallowed, hstep⟩ := hstep
    have := step_inv hstep (hgc _ _ hallowed) ih.1
    exact ⟨this.1, ih.2.trans this.2⟩

theorem Started.inv {n : ℤ} (h : db.Started n) : db.store.txnMgr.Inv := by
  rw [h.txnMgr]
  exact TransactionManager.inv_init n

/-- Timestamps are handed out from the first one on. -/
theorem Started.le_startTs {n : ℤ} (h : db.Started n) (hgrows : db.store.txnMgr.Grows db'.store.txnMgr)
    (htxn : txn ∈ db'.store.txnMgr.txnMap) : n ≤ txn.startTs := by
  rcases hgrows.old_or_new txn htxn with ⟨old, hold, -⟩ | hnew
  · rw [h.txnMgr] at hold
    cases hold
  · rw [h.txnMgr] at hnew
    exact hnew.2

/-! ### Small databases -/

theorem twoCols_ne_nil : ([⟨"a", .int, 4, 0⟩, ⟨"b", .int, 4, 4⟩] : List ColMeta) ≠ [] := List.cons_ne_nil _ _

/-- Empty tables with two integer columns `a` and `b`, on a server that was just started. -/
def emptyTables (nextTimestamp : ℤ) (tables : List String) : Database where
  store := ⟨.init nextTimestamp, fun tab => if tab ∈ tables then some (.create 24) else none, []⟩
  tabs tab :=
    if tab ∈ tables then
      some ⟨[⟨"a", .int, 4, 0⟩, ⟨"b", .int, 4, 4⟩], [], twoCols_ne_nil⟩
    else none
  ihs _ := none

theorem emptyTables_started {n : ℤ} (hn : 0 ≤ n) (tables : List String) :
    (emptyTables n tables).Started n := by
  refine ⟨hn, rfl, rfl, fun tab rid rec_ hslot => ?_⟩
  have hrec : rec_ = zeroRecord 24 := by
    simp only [Store.slot, emptyTables] at hslot
    split at hslot
    · simpa [RmFileHandle.record, RmFileHandle.create] using hslot.symm
    · cases hslot
  rw [hrec]
  exact ⟨rfl, rfl⟩

theorem emptyTables_fresh (n : ℤ) (tables : List String) (tab : String) (rid : Rid) (rec_ : RmRecord)
    (h : (emptyTables n tables).store.slot tab rid = some rec_) : rec_.tupleMeta.ts = 0 := by
  simp only [Store.slot, emptyTables] at h
  split at h
  · obtain rfl : zeroRecord 24 = rec_ := by
      simpa [RmFileHandle.record, RmFileHandle.create] using h
    rfl
  · cases h

end Database
end Rmdb
