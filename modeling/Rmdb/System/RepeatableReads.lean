import Rmdb.System.SnapshotSteps

/-! A reader is shown the same version of a row for as long as it runs: others may update, delete and insert, commit and
abort, provided that no row which an older transaction has inserted is committed in between. -/
namespace Rmdb

open Database TransactionManager

/-- A run that concerns one slot: no other table uses its number, the table stays, and aborts are made in one step. -/
def KeepsSlot (tab : String) (rid : Rid) (db : Database) : Action → Prop
  | .stmt txnId stmt => ∀ txn ∈ db.activeTxn txnId, 1 ≤ txn.startTs ∧
    (rid ∈ stmt.targets db txn → stmt.tab = tab ∧ (¬stmt.isInsert → db.store.occupied tab rid = true))
  | .markAborted _ | .rollbackOne _ | .garbageCollection => False
  | .createTable other _ => other ≠ tab
  | .dropTable other => other ≠ tab
  | _ => True

/-- An older transaction that commits has not inserted the row in the slot, or has written it once more. -/
def KeepsSnapshot (readerId : ℤ) (tab : String) (rid : Rid) (db : Database) : Action → Prop
  | .stmt txnId stmt => txnId = readerId → ∀ txn ∈ db.activeTxn txnId, rid ∉ stmt.targets db txn
  | .commit txnId => ∀ txn ∈ db.activeTxn txnId, ∀ reader ∈ db.activeTxn readerId, txn.startTs < reader.startTs →
    db.store.occupied tab rid = true → ∀ rec_ ∈ db.store.slot tab rid, rec_.tupleMeta.ts = txn.startTs →
    txn.hasWritten tab rid
  | _ => True

instance (tab : String) (rid : Rid) (db : Database) (action : Action) : Decidable (KeepsSlot tab rid db action) :=
  match action with
  | .stmt _ _ => by dsimp only [KeepsSlot]; infer_instance
  | .createTable _ _ => by dsimp only [KeepsSlot]; infer_instance
  | .dropTable _ => by dsimp only [KeepsSlot]; infer_instance
  | .markAborted _ | .rollbackOne _ | .garbageCollection => isFalse id
  | .begin | .commit _ | .abort _ | .createIndex _ _ _ => isTrue trivial

instance (readerId : ℤ) (tab : String) (rid : Rid) (db : Database) (action : Action) :
    Decidable (KeepsSnapshot readerId tab rid db action) :=
  match action with
  | .stmt _ _ => by dsimp only [KeepsSnapshot]; infer_instance
  | .commit _ => by dsimp only [KeepsSnapshot]; infer_instance
  | .begin | .abort _ | .markAborted _ | .rollbackOne _ | .garbageCollection | .createTable _ _ | .dropTable _
  | .createIndex _ _ _ => isTrue trivial

theorem KeepsSlot.writesStamped {tab : String} {rid : Rid} {db : Database} {action : Action}
    (h : KeepsSlot tab rid db action) : WritesStamped db action := by
  cases action with
  | stmt txnId stmt => exact fun txn htxn => (h txn htxn).1
  | garbageCollection => exact h
  | begin => trivial
  | commit txnId => trivial
  | abort txnId => trivial
  | markAborted txnId => trivial
  | rollbackOne txnId => trivial
  | createTable tab colDefs => trivial
  | dropTable tab => trivial
  | createIndex tab colNames unique => trivial

namespace Store

variable {s s' : Store} {tab t : String} {rid r : Rid} {txn reader : Transaction}

/-! ### Whole statements -/

section statements
variable {tabs : String → Option TabMeta} {target : Rid → Prop} {inserting : Prop} {s₀ : Store} {db db' : Database}
  {txnId : ℤ} {stmt : Statement}

theorem occupied_stmtStep (hstep : StmtStep tabs txn t target inserting s₀ s s') (hno : ¬inserting) (tab : String)
    (rid : Rid) : s'.occupied tab rid = s.occupied tab rid := by
  cases hstep.outcome with
  | inserted inserting => exact absurd inserting hno
  | refused inserting => exact absurd inserting hno
  | notInserted runs logged slots => exact slots.occupied tab rid
  | logged may htab htarget logged slots => exact slots.occupied tab rid
  | overwritten may htab htarget write logged put =>
    rw [put.occupied]
    split
    · rename_i hat
      rw [hat.1, hat.2]
    · rfl

theorem Tracked.stmtSteps (h : s.Tracked tab rid) (hsteps : StmtSteps tabs txn t target inserting s₀ s s')
    (hactive : txn.isActive = true) (hpos : 1 ≤ txn.startTs) (hno : ¬inserting)
    (halone : target rid → t = tab ∧ s.occupied tab rid = true) :
    s'.Tracked tab rid ∧ s'.occupied tab rid = s.occupied tab rid := by
  induction hsteps with
  | refl => exact ⟨h, rfl⟩
  | tail _ hstep ih =>
    obtain ⟨htracked, hocc⟩ := ih
    refine ⟨htracked.stmtStep hstep hactive hpos hno fun htarget => ?_, (occupied_stmtStep hstep hno tab rid).trans hocc⟩
    exact ⟨(halone htarget).1, hocc.trans (halone htarget).2⟩

theorem Tracked.shownAt_stmtSteps (h : s.Tracked tab rid) (hsteps : StmtSteps tabs txn t target inserting s₀ s s')
    (hactive : txn.isActive = true) (hpos : 1 ≤ txn.startTs) (hno : ¬inserting)
    (halone : target rid → t = tab ∧ s.occupied tab rid = true) (hreader : reader ∈ s.txnMgr.txnMap)
    (hreads : reader.isActive = true)
    (hforeign : target rid → reader.txnId ≠ txn.txnId ∧ ¬s.txnMgr.Sees reader.startTs txn.startTs) :
    s'.shownAt reader.startTs tab rid = s.shownAt reader.startTs tab rid := by
  induction hsteps with
  | refl => rfl
  | @tail mid last hsteps hstep ih =>
    obtain ⟨htracked, hocc⟩ := h.stmtSteps hsteps hactive hpos hno halone
    have hinert : s.txnMgr.Inert mid.txnMgr := StmtSteps.inert hsteps
    obtain ⟨new, hnew, hid, hstart, hstate, -⟩ := hinert.mem' hreader
    have hnew_active : new.isActive = true := TransactionManager.isActive_congr hstate ▸ hreads
    have hlast := htracked.toAttributed.shownAt_stmtStep hstep hpos hno
      (fun htarget => ⟨(halone htarget).1, hocc.trans (halone htarget).2⟩) hnew hnew_active fun htarget => by
        obtain ⟨hne, hunseen⟩ := hforeign htarget
        rw [hid, hstart, hinert.sees_iff]
        exact ⟨hne, hunseen⟩
    rw [hstart] at hlast
    exact hlast.trans ih

/-- An INSERT that gets beyond its checks goes to the first free slot. -/
theorem insert_step {values : List Value} (hstep : db.step (.stmt txnId (.insert t values)) = some db') :
    ∃ txn, db.activeTxn txnId = some txn ∧ (db'.store = db.store ∨
      ∃ r ∈ (Statement.insert t values).targets db txn, InsertOutcome txn t r db.store db'.store) := by
  simp only [step, Option.bind_eq_bind, Option.bind_eq_some_iff] at hstep
  obtain ⟨txn, htxn, hrun⟩ := hstep
  obtain rfl := runProgram_eq hrun
  refine ⟨txn, htxn, ?_⟩
  obtain ⟨-, hsame | ⟨fh, tabMeta, data, hfh, -, hstore⟩⟩ := execInsert_store db txn t values
  · exact .inl hsame
  · refine .inr ⟨(fh.insertRecord (insertedRecord txn t data)).1, ?_, ?_⟩
    · simp only [Statement.targets, Statement.tab, hfh, List.mem_singleton]
      exact insertRecord_rid _ _
    · rcases hstore with hstore | hstore
      · exact hstore ▸ insertTuple_outcome hfh data _
      · exact hstore ▸ dropInserted_outcome hfh data _

theorem runs_of_activeTxn (htxn : db.activeTxn txnId = some txn) : db.store.Runs txn := by
  obtain ⟨hget, -⟩ := activeTxn_iff.mp htxn
  have hid := (TransactionManager.mem_of_getTransaction hget).2
  exact ⟨txn, by rw [hid, hget], rfl, rfl⟩

theorem Tracked.statement (h : db.store.Tracked tab rid) (hallowed : KeepsSlot tab rid db (.stmt txnId stmt))
    (hstep : db.step (.stmt txnId stmt) = some db') : db'.store.Tracked tab rid := by
  by_cases hinsert : stmt.isInsert
  · have hattr := h.toAttributed.step hallowed.writesStamped hstep
    cases stmt with
    | insert t values =>
      obtain ⟨txn, htxn, hsame | ⟨r, hr, houtcome⟩⟩ := insert_step hstep
      · exact hsame ▸ h
      · refine h.insert hattr houtcome (runs_of_activeTxn htxn) ?_
        rintro rfl
        exact ((hallowed txn htxn).2 hr).1
    | update => exact hinsert.elim
    | delete => exact hinsert.elim
  · obtain ⟨txn, htxn, -, hsteps⟩ := step_stmt hstep
    obtain ⟨-, -, hactive⟩ := activeTxn_mem htxn
    obtain ⟨hpos, halone⟩ := hallowed txn htxn
    exact (h.stmtSteps hsteps hactive hpos hinsert fun htarget => ⟨(halone htarget).1, (halone htarget).2 hinsert⟩).1

/-- What another transaction writes is not shown to a reader. -/
theorem Tracked.shownAt_statement (h : db.store.Tracked tab rid) (hallowed : KeepsSlot tab rid db (.stmt txnId stmt))
    (hsnapshot : KeepsSnapshot reader.txnId tab rid db (.stmt txnId stmt))
    (hstep : db.step (.stmt txnId stmt) = some db') (hreader : reader ∈ db.store.txnMgr.txnMap)
    (hreads : reader.isActive = true) :
    db'.store.shownAt reader.startTs tab rid = db.store.shownAt reader.startTs tab rid := by
  have hforeign : ∀ {txn}, db.activeTxn txnId = some txn → rid ∈ stmt.targets db txn →
      reader.txnId ≠ txn.txnId ∧ ¬db.store.txnMgr.Sees reader.startTs txn.startTs := by
    intro txn htxn htarget
    obtain ⟨hmem, hid, hactive⟩ := activeTxn_mem htxn
    have hpos := (hallowed txn htxn).1
    have hne : reader.txnId ≠ txn.txnId := fun heq => hsnapshot (hid.symm.trans heq.symm) txn htxn htarget
    refine ⟨hne, h.inv.not_sees_active hmem hactive (by omega) fun heq => hne ?_⟩
    rw [h.inv.start_inj txn hmem reader hreader heq]
  by_cases hinsert : stmt.isInsert
  · have hattr := h.toAttributed.step hallowed.writesStamped hstep
    cases stmt with
    | insert t values =>
      obtain ⟨txn, htxn, hsame | ⟨r, hr, houtcome⟩⟩ := insert_step hstep
      · rw [hsame]
      · refine h.toAttributed.shownAt_insert hattr houtcome (runs_of_activeTxn htxn) ?_
        rintro rfl
        exact ⟨((hallowed txn htxn).2 hr).1, (hforeign htxn hr).2⟩
    | update => exact hinsert.elim
    | delete => exact hinsert.elim
  · obtain ⟨txn, htxn, -, hsteps⟩ := step_stmt hstep
    obtain ⟨-, -, hactive⟩ := activeTxn_mem htxn
    obtain ⟨hpos, halone⟩ := hallowed txn htxn
    exact h.shownAt_stmtSteps hsteps hactive hpos hinsert
      (fun htarget => ⟨(halone htarget).1, (halone htarget).2 hinsert⟩) hreader hreads (hforeign htxn)

end statements

/-! ### Runs -/

section step
variable {db db' : Database} {action : Action}

theorem Tracked.step (h : db.store.Tracked tab rid) (hallowed : KeepsSlot tab rid db action)
    (hstep : db.step action = some db') : db'.store.Tracked tab rid := by
  have hattr := h.toAttributed.step hallowed.writesStamped hstep
  cases action with
  | begin =>
    cases hstep
    exact h.begin
  | stmt txnId stmt => exact h.statement hallowed hstep
  | commit txnId =>
    obtain ⟨txn, htxn, rfl⟩ := step_commit hstep
    obtain ⟨hmem, -, hactive⟩ := activeTxn_mem htxn
    exact h.commit hmem hactive
  | abort txnId =>
    obtain ⟨txn, store, htxn, habort, rfl⟩ := step_abort hstep
    obtain ⟨hmem, -, hactive⟩ := activeTxn_mem htxn
    exact h.abort hmem hactive habort
  | markAborted txnId => exact hallowed.elim
  | rollbackOne txnId => exact hallowed.elim
  | garbageCollection => exact hallowed.elim
  | createTable other colDefs =>
    rcases step_createTable hstep with rfl | ⟨-, recordSize, hstore⟩
    · exact h
    · rw [hstore] at hattr ⊢
      exact h.setTable hallowed hattr
  | dropTable other =>
    rcases step_dropTable hstep with hsame | hstore
    · exact hsame ▸ h
    · rw [hstore] at hattr ⊢
      exact h.setTable hallowed hattr
  | createIndex other colNames unique =>
    rw [step_createIndex hstep]
    exact h

/-- One step, after which the reader still runs. -/
theorem Tracked.shownAt_step {after : Transaction} (h : db.store.Tracked tab rid) (hallowed : KeepsSlot tab rid db action)
    (hsnapshot : KeepsSnapshot reader.txnId tab rid db action) (hstep : db.step action = some db')
    (hreader : db.activeTxn reader.txnId = some reader) (hafter : db'.activeTxn reader.txnId = some after) :
    db'.store.shownAt reader.startTs tab rid = db.store.shownAt reader.startTs tab rid := by
  obtain ⟨hmem, -, hreads⟩ := activeTxn_mem hreader
  obtain ⟨hafter_mem, hafter_id, hafter_active⟩ := activeTxn_mem hafter
  -- Whoever ends in this step is another transaction.
  have hother : ∀ {txn}, txn ∈ db.store.txnMgr.txnMap → txn.isActive = true →
      (txn.txnId = reader.txnId → after.isActive = false) → reader.startTs ≠ txn.startTs := by
    intro txn htxn hactive hends hstart
    rw [hends (congrArg Transaction.txnId (h.inv.start_inj txn htxn reader hmem hstart.symm))] at hafter_active
    cases hafter_active
  cases action with
  | begin =>
    cases hstep
    exact h.shownAt_begin
  | stmt txnId stmt => exact h.shownAt_statement hallowed hsnapshot hstep hmem hreads
  | commit txnId =>
    obtain ⟨txn, htxn, rfl⟩ := step_commit hstep
    obtain ⟨htxn_mem, hid, hactive⟩ := activeTxn_mem htxn
    refine h.toAttributed.shownAt_commit h.owned htxn_mem hactive hmem (hother htxn_mem hactive fun heq => ?_)
      (hsnapshot txn htxn reader hreader)
    rw [commit_txnMgr] at hafter_mem
    obtain ⟨old, hold, ⟨hne, rfl⟩ | ⟨-, rfl⟩⟩ := mem_commitTxn hafter_mem
    · exact absurd (hafter_id.trans heq.symm) hne
    · rfl
  | abort txnId =>
    obtain ⟨txn, store, htxn, habort, rfl⟩ := step_abort hstep
    obtain ⟨htxn_mem, -, hactive⟩ := activeTxn_mem htxn
    refine h.shownAt_abort htxn_mem hactive habort hmem hreads (hother htxn_mem hactive fun heq => ?_)
    rcases h.inv.mem_abort htxn_mem (rollbackAll_txnMgr habort) hafter_mem with ⟨-, hne⟩ | rfl
    · exact absurd (hafter_id.trans heq.symm) hne
    · rfl
  | markAborted txnId => exact hallowed.elim
  | rollbackOne txnId => exact hallowed.elim
  | garbageCollection => exact hallowed.elim
  | createTable other colDefs =>
    rcases step_createTable hstep with rfl | ⟨-, recordSize, hstore⟩
    · rfl
    · rw [hstore, shownAt_setTable hallowed]
  | dropTable other =>
    rcases step_dropTable hstep with hsame | hstore
    · rw [hsame]
    · rw [hstore, shownAt_setTable hallowed]
  | createIndex other colNames unique => rw [step_createIndex hstep]

end step

end Store

variable {db₀ db db' : Database} {tab : String} {rid : Rid} {readerId : ℤ} {reader after : Transaction}

theorem Database.Reaches.tracked {n : ℤ} (hreach : db₀.Reaches (KeepsSlot tab rid) db) (hstart : db₀.StartedUnstamped n) :
    db.store.Tracked tab rid := by
  induction hreach with
  | refl =>
    have hattr : db₀.store.Attributed := Reaches.attributed .refl hstart
    have hnil : db₀.store.txnMgr.txnMap = [] := by
      rw [hstart.txnMgr]
      rfl
    exact ⟨hattr, by simp [Store.LogsOwned, hnil], by simp [hnil], by simp [hnil], by simp [hnil]⟩
  | tail _ hstep ih =>
    obtain ⟨action, hallowed, hstep⟩ := hstep
    exact ih.step hallowed hstep

/-- Whoever runs in the end has run all along. -/
theorem Database.activeTxn_of_step {action : Action} {mid : Transaction} (hstep : db.step action = some db')
    (hgc : action ≠ .garbageCollection) (hinv : db.store.txnMgr.Inv) (hmid : mid ∈ db.store.txnMgr.txnMap)
    (hafter : db'.activeTxn mid.txnId = some after) : db.activeTxn mid.txnId = some mid := by
  obtain ⟨hinv', hgrows⟩ := step_inv hstep hgc hinv
  obtain ⟨hafter_mem, hafter_id, hactive⟩ := activeTxn_mem hafter
  refine activeTxn_iff.mpr ⟨hinv.toIds.getTransaction hmid, ?_⟩
  by_contra hended
  rw [Bool.not_eq_true] at hended
  obtain ⟨new, hnew, hid, -, hfin⟩ := hgrows.keeps mid hmid
  obtain rfl := hinv'.id_inj new hnew after hafter_mem (hid.trans hafter_id.symm)
  rw [TransactionManager.isActive_congr (hfin hended).1, hended] at hactive
  cases hactive

theorem Database.Reaches.mono {allowed allowed' : Database → Action → Prop} (h : db.Reaches allowed db')
    (himp : ∀ db action, allowed db action → allowed' db action) : db.Reaches allowed' db' := by
  induction h with
  | refl => exact .refl
  | tail _ hstep ih =>
    obtain ⟨action, hallowed, hstep⟩ := hstep
    exact .tail ih ⟨action, himp _ _ hallowed, hstep⟩

/-- The transaction table knows a reader under the timestamp that it has started with. -/
theorem Database.Reaches.known_reader (h : db.Reaches (KeepsSlot tab rid) db') (hinv : db.store.txnMgr.Inv)
    (hreader : db.activeTxn readerId = some reader) :
    ∃ cur ∈ db'.store.txnMgr.txnMap, cur.txnId = readerId ∧ cur.startTs = reader.startTs := by
  obtain ⟨hmem, hid, -⟩ := activeTxn_mem hreader
  obtain ⟨-, hgrows⟩ := h.inv (fun _ _ hkeeps => hkeeps.writesStamped.ne_garbageCollection) hinv
  obtain ⟨cur, hcur, hcur_id, hcur_start, -⟩ := hgrows.keeps reader hmem
  exact ⟨cur, hcur, hcur_id.trans hid, hcur_start⟩

/-- The version of a row that a reader is shown stays the same over any run that it outlives. -/
theorem shownAt_run (htracked : db.store.Tracked tab rid) (hreader : db.activeTxn readerId = some reader)
    (hrun : db.Reaches (fun db action => KeepsSlot tab rid db action ∧ KeepsSnapshot readerId tab rid db action) db')
    (hafter : db'.activeTxn readerId = some after) : db'.store.Tracked tab rid ∧
      db'.store.shownAt reader.startTs tab rid = db.store.shownAt reader.startTs tab rid := by
  suffices db'.store.Tracked tab rid ∧ ∀ after, db'.activeTxn readerId = some after →
      db'.store.shownAt reader.startTs tab rid = db.store.shownAt reader.startTs tab rid from
    ⟨this.1, this.2 after hafter⟩
  clear hafter
  induction hrun with
  | refl => exact ⟨htracked, fun _ _ => rfl⟩
  | @tail mid last hrun hstep ih =>
    obtain ⟨hmid, hshown⟩ := ih
    obtain ⟨action, ⟨hallowed, hsnapshot⟩, hstep⟩ := hstep
    refine ⟨hmid.step hallowed hstep, fun after hafter => ?_⟩
    have hslots : db.Reaches (KeepsSlot tab rid) mid := Reaches.mono hrun fun _ _ hboth => hboth.1
    obtain ⟨cur, hcur, rfl, hstart⟩ := hslots.known_reader htracked.inv hreader
    have hactive := activeTxn_of_step hstep hallowed.writesStamped.ne_garbageCollection hmid.inv hcur hafter
    have hlast := hmid.shownAt_step hallowed hsnapshot hstep hactive hafter
    rw [hstart] at hlast
    exact hlast.trans (hshown cur hactive)

/-- Two reads of a row in one transaction are served the same version, or both of them none, whatever the others do in
between. -/
theorem repeatable_reads {n : ℤ} {first second : Option RecordView} (hstart : db₀.StartedUnstamped n)
    (hreach : db₀.Reaches (KeepsSlot tab rid) db) (hreader : db.activeTxn readerId = some reader)
    (hfirst : db.store.readRow tab reader.startTs rid = .ok first)
    (hrun : db.Reaches (fun db action => KeepsSlot tab rid db action ∧ KeepsSnapshot readerId tab rid db action) db')
    (hafter : db'.activeTxn readerId = some after)
    (hsecond : db'.store.readRow tab after.startTs rid = .ok second) :
    ∃ shown, db.store.ServesShown tab shown first ∧ db'.store.ServesShown tab shown second := by
  have htracked := hreach.tracked hstart
  obtain ⟨htracked', hshown⟩ := shownAt_run htracked hreader hrun hafter
  have hslots : db.Reaches (KeepsSlot tab rid) db' := hrun.mono fun _ _ hboth => hboth.1
  obtain ⟨cur, hcur, hid, hsame⟩ := hslots.known_reader htracked.inv hreader
  obtain ⟨hmem, hafter_id, -⟩ := activeTxn_mem hafter
  obtain rfl := htracked'.inv.id_inj cur hcur after hmem (hid.trans hafter_id.symm)
  rw [hsame] at hsecond
  exact ⟨_, htracked.toAttributed.servesShown hfirst, hshown ▸ htracked'.toAttributed.servesShown hsecond⟩

/-- Transaction 1 reads a row before transaction 2 updates it and after that has committed. -/
theorem repeatable_reads_updated : ∃ db db' reader after first second,
    (emptyTables 1 ["t"]).run (KeepsSlot "t" ⟨1, 0⟩)
        [.begin, .stmt 0 (.insert "t" [.int 1, .int 5]), .commit 0, .begin] = some db ∧
      db.run (fun db action => KeepsSlot "t" ⟨1, 0⟩ db action ∧ KeepsSnapshot 1 "t" ⟨1, 0⟩ db action)
        [.begin, .stmt 2 (updateB "t" 1 7), .commit 2] = some db' ∧
      db.activeTxn 1 = some reader ∧ db'.activeTxn 1 = some after ∧
      db.store.readRow "t" reader.startTs ⟨1, 0⟩ = .ok (some first) ∧
      db'.store.readRow "t" after.startTs ⟨1, 0⟩ = .ok (some second) ∧ first.row.bytes = second.row.bytes ∧
      ∃ shown, db.store.ServesShown "t" shown (some first) ∧ db'.store.ServesShown "t" shown (some second) := by
  obtain ⟨db, hreach, db', hrun, reader, hreader, after, hafter, first, hfirst, second, hsecond, hbytes⟩ :
      ∃ db, (emptyTables 1 ["t"]).run (KeepsSlot "t" ⟨1, 0⟩)
          [.begin, .stmt 0 (.insert "t" [.int 1, .int 5]), .commit 0, .begin] = some db ∧
      ∃ db', db.run (fun db action => KeepsSlot "t" ⟨1, 0⟩ db action ∧ KeepsSnapshot 1 "t" ⟨1, 0⟩ db action)
          [.begin, .stmt 2 (updateB "t" 1 7), .commit 2] = some db' ∧
      ∃ reader, db.activeTxn 1 = some reader ∧ ∃ after, db'.activeTxn 1 = some after ∧
      ∃ first, db.store.readRow "t" reader.startTs ⟨1, 0⟩ = .ok (some first) ∧
      ∃ second, db'.store.readRow "t" after.startTs ⟨1, 0⟩ = .ok (some second) ∧ first.row.bytes = second.row.bytes :=
    ⟨_, rfl, _, rfl, _, rfl, _, rfl, _, rfl, _, rfl, rfl⟩
  exact ⟨db, db', reader, after, first, second, hreach, hrun, hreader, hafter, hfirst, hsecond, hbytes,
    repeatable_reads (emptyTables_unstamped (n := 1) (by decide) ["t"]) (reaches_of_run hreach) hreader hfirst
      (reaches_of_run hrun) hafter hsecond⟩

end Rmdb
