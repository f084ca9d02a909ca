import Rmdb.System.Rollback

/-! A transaction reads its own writes: where commits and aborts are single steps, what an active
transaction has last written to a slot stays there. -/
namespace Rmdb

open Database

/-- Statements, commits and aborts as single steps, with garbage collection. -/
def Atomic : Action → Prop
  | .begin | .stmt _ _ | .commit _ | .abort _ | .garbageCollection | .createIndex _ _ _ => True
  | .markAborted _ | .rollbackOne _ | .createTable _ _ | .dropTable _ => False

instance (action : Action) : Decidable (Atomic action) :=
  match action with
  | .begin | .stmt _ _ | .commit _ | .abort _ | .garbageCollection | .createIndex _ _ _ => isTrue trivial
  | .markAborted _ | .rollbackOne _ | .createTable _ _ | .dropTable _ => isFalse id

/-- No INSERT takes a free slot that an active transaction has in its write set. -/
def TakesUnwritten (db : Database) : Action → Prop
  | .stmt txnId stmt => ∀ txn ∈ db.activeTxn txnId, stmt.isInsert → ∀ rid ∈ stmt.targets db txn,
    ∀ other ∈ db.store.txnMgr.txnMap, other.isActive = true → ¬other.hasWritten stmt.tab rid
  | _ => True

instance (db : Database) (action : Action) : Decidable (TakesUnwritten db action) :=
  match action with
  | .stmt _ _ => by dsimp only [TakesUnwritten]; infer_instance
  | .begin | .commit _ | .abort _ | .markAborted _ | .rollbackOne _ | .garbageCollection | .createTable _ _
  | .dropTable _ | .createIndex _ _ _ => isTrue trivial

namespace Store

variable {s s' : Store}

/-- Between the steps nothing is left to roll back, and nobody has started at 0. -/
structure Settled (s : Store) : Prop where
  aborted : ∀ txn ∈ s.txnMgr.txnMap, txn.state = .aborted → txn.writeSet = []
  pos : ∀ txn ∈ s.txnMgr.txnMap, 1 ≤ txn.startTs
  next : 1 ≤ s.txnMgr.nextTimestamp

theorem Settled.begin (h : s.Settled) : s.begin.Settled where
  aborted txn htxn hstate := by
    rcases TransactionManager.mem_begin.mp htxn with htxn | rfl
    · exact h.aborted txn htxn hstate
    · cases hstate
  pos txn htxn := by
    rcases TransactionManager.mem_begin.mp htxn with htxn | rfl
    · exact h.pos txn htxn
    · exact h.next
  next := by
    have := h.next
    simp only [Store.begin, TransactionManager.begin]
    omega

theorem Settled.stmtSteps {tabs : String → Option TabMeta} {txn : Transaction} {tab : String}
    {target : Rid → Prop} {inserting : Prop} {s₀ : Store} (h : s.Settled) (hids : s.txnMgr.Ids)
    (hsteps : StmtSteps tabs txn tab target inserting s₀ s s') (hactive : txn.isActive = true) :
    s'.Settled := by
  induction hsteps with
  | refl => exact h
  | tail hfirst hstep ih =>
    obtain ⟨log, ws, hlogged⟩ := hstep.logged
    have hmid := (StmtSteps.inert hfirst).ids hids
    refine ⟨fun new hnew hstate => ?_, fun new hnew => ?_, hlogged.inert.nextTimestamp ▸ ih.next⟩
    · obtain ⟨old, hold, ⟨-, rfl⟩ | ⟨hid, rfl⟩⟩ := hlogged.mem hnew
      · exact ih.aborted new hold hstate
      · have hst := (hstep.runs.1.fields hmid hold hid).2
        rw [← TransactionManager.isActive_congr hst] at hactive
        simp [Transaction.isActive, show old.state = .aborted from hstate] at hactive
    · obtain ⟨old, hold, -, hstart, -⟩ := hlogged.mem_fields hnew
      exact hstart ▸ ih.pos old hold

theorem Settled.commit {cur : Transaction} (h : s.Settled) : (s.commit cur).Settled := by
  have hmem : ∀ {new}, new ∈ (s.commit cur).txnMgr.txnMap → ∃ old ∈ s.txnMgr.txnMap,
      new = old ∨ new = old.committedAt s.txnMgr.nextTimestamp := by
    intro new hnew
    rw [commit_txnMgr] at hnew
    obtain ⟨old, hold, ⟨-, heq⟩ | ⟨-, heq⟩⟩ := TransactionManager.mem_commitTxn hnew
    · exact ⟨old, hold, .inl heq⟩
    · exact ⟨old, hold, .inr heq⟩
  refine ⟨fun new hnew hstate => ?_, fun new hnew => ?_, ?_⟩
  · obtain ⟨old, hold, rfl | rfl⟩ := hmem hnew
    · exact h.aborted new hold hstate
    · cases hstate
  · obtain ⟨old, hold, rfl | rfl⟩ := hmem hnew
    · exact h.pos new hold
    · exact h.pos old hold
  · rw [commit_txnMgr]
    exact h.next.trans (Int.le_add_one le_rfl)

theorem Settled.garbageCollection (h : s.Settled) : s.garbageCollection.Settled where
  aborted txn htxn := h.aborted txn (TransactionManager.mem_garbageCollection.mp htxn).1
  pos txn htxn := h.pos txn (TransactionManager.mem_garbageCollection.mp htxn).1
  next := h.next

/-- What a transaction may still have to put back, it can put back. -/
theorem Owned.undoable {txn : Transaction} (h : s.Owned) (htxn : txn ∈ s.txnMgr.txnMap)
    (hstate : txn.state ≠ .committed) : s.Undoable txn.writeSet := by
  intro w hw
  obtain ⟨hwtype, rec_, hrec⟩ := h.pending txn htxn hstate w hw
  exact ⟨hwtype, hrec.hasPage h.ids htxn⟩

theorem Settled.abort {cur : Transaction} (h : s.Settled) (howned : s.Owned)
    (hcur : s.txnMgr.getTransaction cur.txnId = some cur) (hactive : cur.isActive = true)
    (habort : s.abort cur = some s') : s'.Settled := by
  have hmem := (TransactionManager.mem_of_getTransaction hcur).1
  have hstate : cur.state ≠ .committed := by
    intro hstate
    simp [Transaction.isActive, hstate] at hactive
  obtain ⟨-, htm⟩ := abort_spec hcur (howned.undoable hmem hstate) habort
  have hold : ∀ {new}, new ∈ s'.txnMgr.txnMap → ∃ old ∈ s.txnMgr.txnMap,
      new.startTs = old.startTs ∧ (new = old ∨ new.writeSet = []) := by
    intro new hnew
    rw [htm] at hnew
    obtain ⟨mid, hmid, rfl⟩ := TransactionManager.mem_modifyTxn hnew
    obtain ⟨old, hold, ⟨hid, rfl⟩ | ⟨hid, rfl⟩⟩ := TransactionManager.mem_markAborted hmid
    · rw [if_neg hid]
      exact ⟨mid, hold, rfl, .inl rfl⟩
    · obtain rfl := howned.ids.id_inj old hold cur hmem hid
      rw [if_pos rfl]
      exact ⟨old, hold, rfl, .inr (by simp)⟩
  refine ⟨fun new hnew hstate => ?_, fun new hnew => ?_, ?_⟩
  · obtain ⟨old, hold, -, rfl | hnil⟩ := hold hnew
    · exact h.aborted new hold hstate
    · exact hnil
  · obtain ⟨old, hold, hstart, -⟩ := hold hnew
    exact hstart ▸ h.pos old hold
  · rw [htm]
    exact h.next

theorem Owned.rollbackAll {txnId : ℤ} {n : ℕ} {cur : Transaction} (h : s.Owned)
    (hcur : s.txnMgr.getTransaction txnId = some cur) (haborted : cur.state = .aborted)
    (hroll : Store.rollbackAll txnId n s = some s') : s'.Owned := by
  induction n generalizing s cur with
  | zero =>
    cases hroll
    exact h
  | succ n ih =>
    simp only [Store.rollbackAll, Option.bind_eq_some_iff] at hroll
    obtain ⟨s₁, hone, hall⟩ := hroll
    obtain ⟨-, -, -, -, -, -, htm, -⟩ := rollbackOne_eq hone
    have hcur₁ : s₁.txnMgr.getTransaction txnId =
        some { cur with writeSet := cur.writeSet.dropLast } := by
      rw [htm, TransactionManager.getTransaction_modifyTxn_ite, if_pos rfl, hcur]
      · rfl
      · exact fun _ => rfl
    exact ih (h.rollbackOne hcur haborted hone) hcur₁ haborted hall

theorem Owned.abort {cur : Transaction} (h : s.Owned) (hcur : cur ∈ s.txnMgr.txnMap)
    (hactive : cur.isActive = true) (habort : s.abort cur = some s') : s'.Owned := by
  have hmarked := h.markAborted hactive hcur
  have hget := hmarked.ids.getTransaction (TransactionManager.markAborted_mem_self hcur rfl)
  exact hmarked.rollbackAll hget rfl habort

/-- No rollback is open and every mark is good, so that a statement has to heed INSERTs only. -/
theorem Settled.heeds {txn : Transaction} {tab : String} {target : Rid → Prop} {inserting : Prop}
    (h : s.Settled) (hfree : inserting → ∀ other ∈ s.txnMgr.txnMap, other.isActive = true →
      ∀ rid, target rid → ¬other.hasWritten tab rid) : s.Heeds txn tab target inserting where
  foreign other hother _ hcase rid _ := by
    rcases hcase with haborted | ⟨-, hneg⟩
    · rintro ⟨w, hw, -⟩
      rw [h.aborted other hother haborted] at hw
      cases hw
    · have := h.pos other hother
      omega
  free := hfree

end Store

variable {db db' : Database}

theorem Database.Started.settled {n : ℤ} (h : db.Started n) (hn : 1 ≤ n) : db.store.Settled := by
  refine ⟨fun txn htxn => ?_, fun txn htxn => ?_, ?_⟩ <;> rw [h.txnMgr] at *
  · cases htxn
  · cases htxn
  · exact hn

theorem settled_step {action : Action} (hstep : db.step action = some db') (hallowed : Atomic action)
    (hfree : TakesUnwritten db action) (howned : db.store.Owned) (h : db.store.Settled) :
    db'.store.Owned ∧ db'.store.Settled := by
  cases action with
  | begin =>
    cases hstep
    exact ⟨howned.begin, h.begin⟩
  | stmt txnId stmt =>
    obtain ⟨txn, htxn, -, hsteps⟩ := step_stmt hstep
    have hactive := (activeTxn_mem htxn).2.2
    have hheeds : db.store.Heeds txn stmt.tab (· ∈ stmt.targets db txn) stmt.isInsert :=
      h.heeds fun hins other hother hother_active rid hrid =>
        hfree txn htxn hins rid hrid other hother hother_active
    exact ⟨howned.stmtSteps hsteps hactive hheeds, h.stmtSteps howned.ids hsteps hactive⟩
  | commit txnId =>
    obtain ⟨txn, htxn, rfl⟩ := step_commit hstep
    exact ⟨howned.commit (activeTxn_mem htxn).1, h.commit⟩
  | abort txnId =>
    obtain ⟨txn, store, htxn, habort, rfl⟩ := step_abort hstep
    obtain ⟨hmem, -, hactive⟩ := activeTxn_mem htxn
    exact ⟨howned.abort hmem hactive habort,
      h.abort howned (howned.ids.getTransaction hmem) hactive habort⟩
  | garbageCollection =>
    cases hstep
    exact ⟨howned.garbageCollection, h.garbageCollection⟩
  | createIndex tab colNames unique =>
    rw [step_createIndex hstep]
    exact ⟨howned, h⟩
  | markAborted txnId => exact hallowed.elim
  | rollbackOne txnId => exact hallowed.elim
  | createTable tab colDefs => exact hallowed.elim
  | dropTable tab => exact hallowed.elim

/-- An active transaction sees what it has last written to a slot, where no INSERT takes a slot
that an active transaction has written. -/
theorem own_write_visible {db₀ : Database} {n txnId : ℤ} {txn : Transaction} {tab : String}
    {rid : Rid} {w : HeapWrite} (hstart : db₀.Started n) (hn : 1 ≤ n)
    (hrun : db₀.Reaches (fun db action => Atomic action ∧ TakesUnwritten db action) db)
    (htxn : db.activeTxn txnId = some txn) (hlast : db.store.lastWriteBy txnId tab rid = some w)
    (hkind : w.kind ≠ .undo) :
    db.store.getRecordMvcc tab txn.startTs rid =
      .ok (if w.kind = .delete then none else some ⟨none, w.record.row⟩) := by
  have hinv : db.store.Owned ∧ db.store.Settled := by
    clear htxn hlast
    induction hrun with
    | refl => exact ⟨hstart.owned, hstart.settled hn⟩
    | tail _ hmove ih =>
      obtain ⟨action, ⟨hallowed, hfree⟩, hmove⟩ := hmove
      exact settled_step hmove hallowed hfree ih.1 ih.2
  obtain ⟨howned, hsettled⟩ := hinv
  obtain ⟨hmem, rfl, hactive⟩ := activeTxn_mem htxn
  have hpos := hsettled.pos txn hmem
  obtain ⟨hholds, hdel, hslotNo, -⟩ := howned.latest txn hmem hactive hpos tab rid w hlast hkind
  have hts := hholds.stamp hactive
  have hlt := howned.ids.start_lt txn hmem
  rw [Store.read_current hholds.slot (hholds.hasPage howned.ids hmem) hslotNo
    (Store.hasTupleMeta_of_lt (by omega) (by omega)) (.inr (.inl hts))]
  simp only [hdel, decide_eq_true_eq]

/-- Transaction 1 updates a row twice, and transaction 2 fails to. -/
theorem own_write_visible_update :
    ∃ db txn, ∃ w : HeapWrite, (emptyTables 1 ["t"]).run (fun db action => Atomic action ∧ TakesUnwritten db action)
        [.begin, .stmt 0 (.insert "t" [.int 1, .int 5]), .commit 0, .begin, .begin,
          .stmt 1 (updateB "t" 1 7), .stmt 1 (updateB "t" 1 8), .stmt 2 (updateB "t" 1 9),
          .abort 2] = some db ∧
      db.activeTxn 1 = some txn ∧ w.record.row.bytes = [1, 0, 0, 0, 8, 0, 0, 0] ∧
      db.store.getRecordMvcc "t" txn.startTs ⟨1, 0⟩ =
        .ok (if w.kind = .delete then none else some ⟨none, w.record.row⟩) := by
  obtain ⟨db, hrun, txn, htxn, w, hlast, hkind, hbytes⟩ : ∃ db, (emptyTables 1 ["t"]).run
        (fun db action => Atomic action ∧ TakesUnwritten db action)
        [.begin, .stmt 0 (.insert "t" [.int 1, .int 5]), .commit 0, .begin, .begin,
          .stmt 1 (updateB "t" 1 7), .stmt 1 (updateB "t" 1 8), .stmt 2 (updateB "t" 1 9),
          .abort 2] = some db ∧
      ∃ txn, db.activeTxn 1 = some txn ∧ ∃ w, db.store.lastWriteBy 1 "t" ⟨1, 0⟩ = some w ∧
        w.kind ≠ .undo ∧ w.record.row.bytes = [1, 0, 0, 0, 8, 0, 0, 0] :=
    ⟨_, rfl, _, rfl, _, rfl, by decide, rfl⟩
  exact ⟨db, txn, w, hrun, htxn, hbytes, own_write_visible (emptyTables_started (n := 1) (by decide) ["t"])
    (by decide) (reaches_of_run hrun) htxn hlast hkind⟩

/-- `DELETE .. WHERE a = key` on a table of `emptyTables` with an index on `a`. -/
def deleteByA (tab : String) (key : BitVec 32) : Statement :=
  .delete tab (fun data => readWord (data.take 4) = key)
    (.index ⟨true, [⟨"a", .int, 4, 0⟩]⟩ (some (wordBytes key)) (some (wordBytes key)))

/-- An INSERT of transaction 1 is refused and leaves an index entry for the slot it frees.
Transaction 2 deletes through this entry, transaction 3 inserts a row into the free slot, and the
rollback of transaction 2 puts zeros in its place. -/
theorem not_own_write_visible : ¬∀ (db₀ db : Database) (n txnId : ℤ) (txn : Transaction) (tab : String)
    (rid : Rid) (w : HeapWrite), db₀.Started n → 1 ≤ n → db₀.Reaches (fun _ action => Atomic action) db →
    db.activeTxn txnId = some txn → db.store.lastWriteBy txnId tab rid = some w → w.kind ≠ .undo →
    db.store.getRecordMvcc tab txn.startTs rid =
      .ok (if w.kind = .delete then none else some ⟨none, w.record.row⟩) := by
  intro hclaim
  have hrun : (((emptyTables 1 ["t"]).run (fun _ action => Atomic action)
      [.createIndex "t" ["a"] true, .createIndex "t" ["b"] true,
        .begin, .stmt 0 (.insert "t" [.int 1, .int 5]), .commit 0,
        .begin, .stmt 1 (.insert "t" [.int 0, .int 5]), .commit 1,
        .begin, .stmt 2 (deleteByA "t" 0),
        .begin, .stmt 3 (.insert "t" [.int 7, .int 7]), .abort 2]).any fun db =>
      (db.activeTxn 3).any fun txn => (db.store.lastWriteBy 3 "t" ⟨1, 1⟩).any fun w =>
        w.kind = .insert && w.record.row.bytes = [7, 0, 0, 0, 7, 0, 0, 0] &&
        ((db.store.getRecordMvcc "t" txn.startTs ⟨1, 1⟩).toOption.join.any fun view =>
          view.row.bytes = [0, 0, 0, 0, 0, 0, 0, 0])) = true := by decide +kernel
  simp only [Option.any_eq_true, Bool.and_eq_true, decide_eq_true_eq] at hrun
  obtain ⟨db, hrun, txn, htxn, w, hlast, ⟨hkind, hbytes⟩, view, hread, hother⟩ := hrun
  have h := hclaim _ db 1 3 txn "t" ⟨1, 1⟩ w (emptyTables_started (by decide) ["t"]) le_rfl
    (reaches_of_run hrun) htxn hlast (by simp [hkind])
  rw [h, if_neg (by simp [hkind])] at hread
  cases hread
  rw [hbytes] at hother
  cases hother

end Rmdb
