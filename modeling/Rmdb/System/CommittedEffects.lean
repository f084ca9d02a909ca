import Rmdb.System.Run
import Rmdb.Transaction.Reading

/-! Committed effects are visible to later transactions: the last write to a slot stays there,
under the start or the commit timestamp of its transaction, until someone writes the slot again. -/
namespace Rmdb

open Database

namespace Store

/-- The slot holds what was last written to it, as written or with a commit timestamp. -/
structure HoldsWrite (s : Store) (w : HeapWrite) (txn : Transaction) : Prop where
  mem : txn ∈ s.txnMgr.txnMap
  id : txn.txnId = w.txnId
  rid : 0 ≤ w.rid.slotNo
  ts : w.record.tupleMeta.ts = txn.startTs
  deleted : w.record.tupleMeta.isDeleted = decide (w.kind = .delete)
  writer : w.record.writer = txn.txnId
  slot : s.slot w.tab w.rid = some w.record ∨
    txn.state = .committed ∧ s.slot w.tab w.rid = some (stamped txn.commitTs w.record)

/-- Every last write of a statement is still in its slot. -/
def HoldsWrites (s : Store) : Prop :=
  ∀ tab rid w, s.lastWrite tab rid = some w → w.kind ≠ .undo → ∃ txn, s.HoldsWrite w txn

variable {s s' : Store} {tab : String} {rid : Rid} {w : HeapWrite}

theorem lastWrite_isAt (h : s.lastWrite tab rid = some w) : w.tab = tab ∧ w.rid = rid := by
  have := List.find?_some h
  simpa using this

theorem lastWrite_cons (h : s'.history = w :: s.history) :
    s'.lastWrite tab rid = if w.isAt tab rid then some w else s.lastWrite tab rid := by
  simp only [lastWrite, h, List.find?_cons]
  cases w.isAt tab rid <;> rfl

theorem lastWrite_congr (h : s'.history = s.history) : s'.lastWrite tab rid = s.lastWrite tab rid := by
  simp only [lastWrite, h]

/-- A write stays where no other write goes, while the status of its transaction is kept. -/
private theorem HoldsWrite.inert {txn : Transaction} (h : s.HoldsWrite w txn)
    (hinert : s.txnMgr.Inert s'.txnMgr) (hslot : s'.slot w.tab w.rid = s.slot w.tab w.rid) :
    ∃ txn', s'.HoldsWrite w txn' := by
  obtain ⟨txn', hmem, hid, hstart, hstate, hcommit⟩ := hinert.mem' h.mem
  refine ⟨txn', hmem, hid.trans h.id, h.rid, h.ts.trans hstart.symm, h.deleted,
    h.writer.trans hid.symm, ?_⟩
  rw [hslot, hstate, hcommit]
  exact h.slot

private theorem HoldsWrites.sameSlots (h : s.HoldsWrites) (hinert : s.txnMgr.Inert s'.txnMgr)
    (hslots : ∀ t r, s'.slot t r = s.slot t r) (hhist : s'.history = s.history) : s'.HoldsWrites := by
  intro tab rid w hw hkind
  rw [lastWrite_congr hhist] at hw
  obtain ⟨txn, htxn⟩ := h tab rid w hw hkind
  exact htxn.inert hinert (hslots _ _)

/-- One slot is written, and the write is the newest of the history. -/
private theorem HoldsWrites.put {rec_ : RmRecord} {used : Bool} (h : s.HoldsWrites)
    (hinert : s.txnMgr.Inert s'.txnMgr) (hput : s.Put s' w.tab w.rid rec_ used)
    (hhist : ∀ t r, s'.lastWrite t r = if w.isAt t r then some w else s.lastWrite t r)
    (hnew : w.kind ≠ .undo → ∃ txn, s'.HoldsWrite w txn) : s'.HoldsWrites := by
  intro tab rid w' hw' hkind
  rw [hhist] at hw'
  split at hw'
  · cases hw'
    exact hnew hkind
  · rename_i hat
    obtain ⟨txn, htxn⟩ := h tab rid w' hw' hkind
    obtain ⟨rfl, rfl⟩ := lastWrite_isAt hw'
    refine htxn.inert hinert (hput.slot_ne ?_)
    rintro ⟨ht, hr⟩
    apply hat
    simp [ht, hr]

private theorem holdsWrite_new {rec_ : RmRecord} {used : Bool} {txn : Transaction}
    {kind : WriteKind} (hruns : s.Runs txn) (hinert : s.txnMgr.Inert s'.txnMgr)
    (hput : s.Put s' tab rid rec_ used) (hrid : 0 ≤ rid.slotNo)
    (hts : rec_.tupleMeta.ts = txn.startTs) (hwriter : rec_.writer = txn.txnId)
    (hdeleted : rec_.tupleMeta.isDeleted = decide (kind = .delete)) :
    ∃ cur, s'.HoldsWrite ⟨txn.txnId, tab, rid, kind, rec_⟩ cur := by
  obtain ⟨cur, hcur, hstart, -⟩ := hruns
  obtain ⟨hmem, hid⟩ := TransactionManager.mem_of_getTransaction hcur
  obtain ⟨new, hnew, hid', hstart', -⟩ := hinert.mem' hmem
  exact ⟨new, hnew, hid'.trans hid, hrid, hts.trans (hstart.symm.trans hstart'.symm), hdeleted,
    hwriter.trans (hid.symm.trans hid'.symm), .inl hput.slot_self⟩

theorem HoldsWrites.stmtStep {tabs : String → Option TabMeta} {txn : Transaction}
    {target : Rid → Prop} {inserting : Prop} {s₀ : Store} (h : s.HoldsWrites)
    (hstep : StmtStep tabs txn tab target inserting s₀ s s') : s'.HoldsWrites := by
  have hinert := hstep.inert
  cases hstep.outcome with
  | notInserted runs logged slots history version => exact h.sameSlots hinert slots.slot history
  | logged may htab target logged slots history version => exact h.sameSlots hinert slots.slot history
  | inserted inserting first runs file target slotNo free logged put history version =>
    exact h.put hinert put (fun t r => lastWrite_cons history)
      fun _ => holdsWrite_new runs hinert put slotNo rfl rfl rfl
  | refused inserting first runs file target slotNo free logged put history version =>
    rename_i fh rid n data
    refine HoldsWrites.put (w := ⟨txn.txnId, tab, rid, .undo, zeroRecord fh.recordSize⟩) h hinert put
      (fun t r => ?_) fun hkind => absurd rfl hkind
    simp only [lastWrite, history, List.find?_cons, HeapWrite.isAt]
    by_cases hat : tab = t ∧ rid = r <;> simp [hat]
  | overwritten may htab target write logged put history version =>
    refine h.put hinert put (fun t r => lastWrite_cons history) fun _ => ?_
    have hrid := (RmFileHandle.getRecordMvcc_page may.visible).1
    cases write with
    | update data => exact holdsWrite_new may.runs hinert put hrid rfl rfl rfl
    | delete => exact holdsWrite_new may.runs hinert put hrid rfl rfl rfl

theorem HoldsWrites.stmtSteps {tabs : String → Option TabMeta} {txn : Transaction}
    {target : Rid → Prop} {inserting : Prop} {s₀ : Store} (h : s.HoldsWrites)
    (hsteps : StmtSteps tabs txn tab target inserting s₀ s s') : s'.HoldsWrites := by
  induction hsteps with
  | refl => exact h
  | tail _ hstep ih => exact ih.stmtStep hstep

theorem HoldsWrites.begin (h : s.HoldsWrites) : s.begin.HoldsWrites := by
  intro tab rid w hw hkind
  obtain ⟨txn, htxn⟩ := h tab rid w hw hkind
  exact ⟨txn, { htxn with mem := TransactionManager.mem_begin.mpr (.inl htxn.mem) }⟩

/-- A commit restamps no slots but those that still carry its own start timestamp. -/
theorem HoldsWrites.commit {cur : Transaction} (h : s.HoldsWrites) (hinv : s.txnMgr.Inv)
    (hcur : cur ∈ s.txnMgr.txnMap) (hactive : cur.isActive = true) : (s.commit cur).HoldsWrites := by
  intro tab rid w hw hkind
  rw [lastWrite_congr commit_history] at hw
  obtain ⟨txn, htxn⟩ := h tab rid w hw hkind
  have hslot := commit_slot s cur w.tab w.rid
  have hne_state : txn.state = .committed → txn.txnId ≠ cur.txnId := by
    rintro hstate hid
    rw [← hinv.id_inj txn htxn.mem cur hcur hid] at hactive
    simp [Transaction.isActive, hstate] at hactive
  by_cases hid : txn.txnId = cur.txnId
  · obtain rfl := hinv.id_inj txn htxn.mem cur hcur hid
    have hcurrent : s.slot w.tab w.rid = some w.record :=
      htxn.slot.resolve_right fun hcommitted => hne_state hcommitted.1 hid
    refine ⟨txn.committedAt s.txnMgr.nextTimestamp, ?_, htxn.id, htxn.rid, htxn.ts, htxn.deleted,
      htxn.writer, ?_⟩
    · rw [commit_txnMgr]
      exact TransactionManager.commitTxn_mem_self hcur rfl
    · rcases hslot with ⟨hsame, -⟩ | ⟨rec_, hrec, -, hnew⟩
      · exact .inl (hsame.trans hcurrent)
      · obtain rfl : w.record = rec_ := Option.some.inj (hcurrent.symm.trans hrec)
        exact .inr ⟨rfl, hnew⟩
  · have hmem : txn ∈ (s.commit cur).txnMgr.txnMap := by
      rw [commit_txnMgr]
      exact TransactionManager.commitTxn_mem_of_ne htxn.mem hid
    refine ⟨txn, { htxn with mem := hmem, slot := ?_ }⟩
    rcases hslot with ⟨hsame, -⟩ | ⟨rec_, hrec, hst, -⟩
    · rw [hsame]
      exact htxn.slot
    · -- The restamped record carries the start timestamp of the committing transaction.
      have hts := hst.2.2.1
      rcases htxn.slot with hold | ⟨hstate, hold⟩
      · obtain rfl : w.record = rec_ := Option.some.inj (hold.symm.trans hrec)
        rw [htxn.ts] at hts
        rw [hinv.start_inj txn htxn.mem cur hcur hts] at hid
        exact absurd rfl hid
      · obtain rfl : stamped txn.commitTs w.record = rec_ := Option.some.inj (hold.symm.trans hrec)
        exact absurd hts (hinv.commit_ne_start txn htxn.mem cur hcur hstate)

theorem HoldsWrites.markAborted {cur : Transaction} (h : s.HoldsWrites) (hinv : s.txnMgr.Inv)
    (hcur : cur ∈ s.txnMgr.txnMap) (hactive : cur.isActive = true) :
    (s.markAborted cur).HoldsWrites := by
  intro tab rid w hw hkind
  obtain ⟨txn, htxn⟩ := h tab rid w hw hkind
  by_cases hid : txn.txnId = cur.txnId
  · obtain rfl := hinv.id_inj txn htxn.mem cur hcur hid
    refine ⟨{ txn with state := .aborted },
      TransactionManager.markAborted_mem_self hcur rfl, htxn.id, htxn.rid, htxn.ts, htxn.deleted,
      htxn.writer, .inl (htxn.slot.resolve_right fun hcommitted => ?_)⟩
    simp [Transaction.isActive, hcommitted.1] at hactive
  · exact ⟨txn, { htxn with mem := TransactionManager.markAborted_mem_of_ne htxn.mem hid }⟩

theorem HoldsWrites.rollbackOne {txnId : ℤ} (h : s.HoldsWrites)
    (hroll : s.rollbackOne txnId = some s') : s'.HoldsWrites := by
  obtain ⟨cur, last, fh, hcur, hlast, -, -, -, hhist⟩ := rollbackOne_eq hroll
  intro tab rid w hw hkind
  rw [lastWrite_cons hhist] at hw
  split at hw
  · cases hw
    exact absurd rfl hkind
  · rename_i hat
    obtain ⟨txn, htxn⟩ := h tab rid w hw hkind
    obtain ⟨rfl, rfl⟩ := lastWrite_isAt hw
    refine htxn.inert (rollbackOne_inert hroll) (rollbackOne_slot_ne hroll hcur hlast ?_)
    rintro ⟨ht, hr⟩
    apply hat
    simp [ht, hr]

theorem HoldsWrites.rollbackAll {txnId : ℤ} {n : ℕ} (h : s.HoldsWrites)
    (hroll : Store.rollbackAll txnId n s = some s') : s'.HoldsWrites := by
  induction n generalizing s with
  | zero =>
    cases hroll
    exact h
  | succ n ih =>
    simp only [Store.rollbackAll, Option.bind_eq_some_iff] at hroll
    obtain ⟨s₁, hone, hall⟩ := hroll
    exact ih (h.rollbackOne hone) hall

/-- The history of a table that is replaced is gone with its slots. -/
theorem HoldsWrites.setTable {table : String} {fh : Option RmFileHandle} (h : s.HoldsWrites) :
    (s.setTable table fh).HoldsWrites := by
  intro tab rid w hw hkind
  have hmem := List.mem_filter.mp (List.mem_of_find?_eq_some hw)
  obtain ⟨rfl, rfl⟩ := lastWrite_isAt hw
  have hne : w.tab ≠ table := by simpa using hmem.2
  have hold : s.lastWrite w.tab w.rid = some w := by
    simp only [lastWrite, Store.setTable, List.find?_filter] at hw
    rw [← hw, lastWrite]
    congr 1
    funext e
    by_cases he : e.tab = w.tab
    · simp [HeapWrite.isAt, he, hne]
    · simp [HeapWrite.isAt, he]
  obtain ⟨txn, htxn⟩ := h w.tab w.rid w hold hkind
  refine ⟨txn, { htxn with slot := ?_ }⟩
  have hslot : (s.setTable table fh).slot w.tab w.rid = s.slot w.tab w.rid := by
    simp [Store.slot, Store.setTable, hne]
  rw [hslot]
  exact htxn.slot

end Store

/-- Every step but garbage collection. -/
def KeepsVersions (_ : Database) : Action → Prop
  | .garbageCollection => False
  | _ => True

instance (db : Database) (action : Action) : Decidable (KeepsVersions db action) :=
  match action with
  | .garbageCollection => isFalse id
  | .begin | .stmt _ _ | .commit _ | .abort _ | .markAborted _ | .rollbackOne _ | .createTable _ _ | .dropTable _
  | .createIndex _ _ _ => isTrue trivial

theorem KeepsVersions.ne {db : Database} {action : Action} (h : KeepsVersions db action) :
    action ≠ .garbageCollection := by
  rintro rfl
  exact h

variable {db db' : Database}

theorem holdsWrites_step {action : Action} (h : db.step action = some db')
    (hgc : action ≠ .garbageCollection) (hinv : db.store.txnMgr.Inv) (hw : db.store.HoldsWrites) :
    db'.store.HoldsWrites := by
  cases action with
  | begin =>
    cases h
    exact hw.begin
  | stmt txnId stmt =>
    obtain ⟨txn, -, -, hsteps⟩ := step_stmt h
    exact hw.stmtSteps hsteps
  | commit txnId =>
    obtain ⟨txn, htxn, rfl⟩ := step_commit h
    obtain ⟨hmem, -, hactive⟩ := activeTxn_mem htxn
    exact hw.commit hinv hmem hactive
  | abort txnId =>
    obtain ⟨txn, store, htxn, habort, rfl⟩ := step_abort h
    obtain ⟨hmem, -, hactive⟩ := activeTxn_mem htxn
    exact (hw.markAborted hinv hmem hactive).rollbackAll habort
  | markAborted txnId =>
    obtain ⟨txn, htxn, rfl⟩ := step_markAborted h
    obtain ⟨hmem, -, hactive⟩ := activeTxn_mem htxn
    exact hw.markAborted hinv hmem hactive
  | rollbackOne txnId =>
    obtain ⟨txn, store, -, -, hroll, rfl⟩ := step_rollbackOne h
    exact hw.rollbackOne hroll
  | garbageCollection => exact absurd rfl hgc
  | createTable tab colDefs =>
    rcases step_createTable h with rfl | ⟨-, recordSize, hstore⟩
    · exact hw
    · rw [hstore]
      exact hw.setTable
  | dropTable tab =>
    rcases step_dropTable h with hsame | hstore
    · rw [hsame]
      exact hw
    · rw [hstore]
      exact hw.setTable
  | createIndex tab colNames unique =>
    rw [step_createIndex h]
    exact hw

theorem holdsWrites_reaches (h : db.Reaches KeepsVersions db') (hinv : db.store.txnMgr.Inv)
    (hw : db.store.HoldsWrites) : db'.store.HoldsWrites := by
  induction h with
  | refl => exact hw
  | tail hrun hstep ih =>
    obtain ⟨action, hgc, hstep⟩ := hstep
    exact holdsWrites_step hstep hgc.ne (Reaches.inv hrun (fun _ _ h => h.ne) hinv).1 ih

/-- A transaction that begins after the commit of `writer` sees what `writer` last wrote to a
slot, as long as nobody has written the slot since. -/
theorem committed_write_visible {db₀ db₁ db₂ : Database} {n : ℤ} {writer reader : Transaction}
    {tab : String} {rid : Rid} {w : HeapWrite} (hstart : db₀.Started n)
    (hrun₁ : db₀.Reaches KeepsVersions db₁) (hwriter : writer ∈ db₁.store.txnMgr.txnMap)
    (hcommitted : writer.state = .committed) (hrun₂ : db₁.Reaches KeepsVersions db₂)
    (hnew : db₁.store.txnMgr.getTransaction reader.txnId = none)
    (hreader : db₂.store.txnMgr.getTransaction reader.txnId = some reader)
    (hlast : db₂.store.lastWrite tab rid = some w) (hid : w.txnId = writer.txnId)
    (hkind : w.kind ≠ .undo) :
    db₂.store.getRecordMvcc tab reader.startTs rid =
      .ok (if w.kind = .delete then none else some ⟨none, w.record.row⟩) := by
  have hgc : ∀ db action, KeepsVersions db action → action ≠ .garbageCollection := fun _ _ h => h.ne
  have hempty : db₀.store.HoldsWrites := by
    intro tab rid w hw
    simp [Store.lastWrite, hstart.history] at hw
  obtain ⟨hinv₁, hgrows₁⟩ := Reaches.inv hrun₁ hgc hstart.inv
  obtain ⟨hinv₂, hgrows₂⟩ := Reaches.inv hrun₂ hgc hinv₁
  have hholds := holdsWrites_reaches hrun₂ hinv₁ (holdsWrites_reaches hrun₁ hstart.inv hempty)
  obtain ⟨txn, htxn⟩ := hholds tab rid w hlast hkind
  obtain ⟨rfl, rfl⟩ := Store.lastWrite_isAt hlast
  -- The transaction is still committed, with the timestamps that it had.
  have hfinished : writer.isActive = false := by simp [Transaction.isActive, hcommitted]
  obtain ⟨writer', hwriter', hid', hstart', hfin⟩ := hgrows₂.keeps writer hwriter
  obtain ⟨hstate', hcommit'⟩ := hfin hfinished
  obtain rfl := hinv₂.id_inj txn htxn.mem writer' hwriter' (htxn.id.trans (hid.trans hid'.symm))
  have hstate : txn.state = .committed := hstate'.trans hcommitted
  have hcommit := hinv₂.committed txn htxn.mem hstate
  have hpos := hstart.le_startTs (hgrows₁.trans hgrows₂) htxn.mem
  -- The reader has started after the commit.
  have hlt : txn.commitTs < reader.startTs := by
    obtain ⟨hmem, -⟩ := TransactionManager.mem_of_getTransaction hreader
    rcases hgrows₂.old_or_new reader hmem with ⟨old, hold, hold_id, -⟩ | ⟨-, hlate⟩
    · rw [← hold_id, hinv₁.getTransaction hold] at hnew
      cases hnew
    · have := (hinv₁.committed writer hwriter hcommitted).2.1
      omega
  have hvisible := hinv₂.committedBefore htxn.mem hstate hlt
  have hnonneg := hstart.nonneg
  have hpage : ∀ rec_, db₂.store.slot w.tab w.rid = some rec_ → rec_.writer = txn.txnId →
      db₂.store.hasPage w.tab w.rid.pageNo := by
    intro rec_ hrec hw
    refine Store.hasPage_of_writer hrec fun hinvalid => ?_
    have := (hinv₂.bounds txn htxn.mem).1
    rw [← hw, hinvalid] at this
    simp [invalidTxnId] at this
  rcases htxn.slot with hslot | ⟨-, hslot⟩
  · rw [Store.read_current hslot (hpage _ hslot htxn.writer) htxn.rid
      (Store.hasTupleMeta_of_lt (by rw [htxn.ts]; omega) (by rw [htxn.ts]; omega))
      (.inr (.inr (by rw [htxn.ts]; exact hvisible.1)))]
    simp only [htxn.deleted, decide_eq_true_eq]
  · rw [Store.read_current hslot (hpage _ hslot htxn.writer) htxn.rid
      (Store.hasTupleMeta_of_lt (by simp only [Store.stamped]; omega)
        (by simp only [Store.stamped]; omega))
      (.inr (.inr hvisible.2))]
    simp only [Store.stamped, htxn.deleted, decide_eq_true_eq]

/-- Transaction 0 inserts a row and commits, then transaction 1 starts and reads it. -/
theorem committed_write_visible_insert :
    ∃ db₁ db₂ reader w, (emptyTables 1 ["t"]).run KeepsVersions
        [.begin, .stmt 0 (.insert "t" [.int 1, .int 5]), .commit 0] = some db₁ ∧
      db₁.run KeepsVersions [.begin] = some db₂ ∧
      db₂.store.txnMgr.getTransaction 1 = some reader ∧ db₂.store.lastWrite "t" ⟨1, 0⟩ = some w ∧
      w.record.row.bytes = [1, 0, 0, 0, 5, 0, 0, 0] ∧
      db₂.store.getRecordMvcc "t" reader.startTs ⟨1, 0⟩ =
        .ok (if w.kind = .delete then none else some ⟨none, w.record.row⟩) := by
  obtain ⟨db₁, h₁, ⟨writer, hwriter, hcommitted, hid₁⟩, hnew, db₂, h₂, reader, hreader, w, hlast, hid,
      hkind, hbytes⟩ : ∃ db₁, (emptyTables 1 ["t"]).run KeepsVersions
        [.begin, .stmt 0 (.insert "t" [.int 1, .int 5]), .commit 0] = some db₁ ∧
      (∃ writer ∈ db₁.store.txnMgr.txnMap, writer.state = .committed ∧ writer.txnId = 0) ∧
      db₁.store.txnMgr.getTransaction 1 = none ∧
      ∃ db₂, db₁.run KeepsVersions [.begin] = some db₂ ∧
      ∃ reader, db₂.store.txnMgr.getTransaction 1 = some reader ∧
      ∃ w, db₂.store.lastWrite "t" ⟨1, 0⟩ = some w ∧ w.txnId = 0 ∧ w.kind ≠ .undo ∧
        w.record.row.bytes = [1, 0, 0, 0, 5, 0, 0, 0] :=
    ⟨_, rfl, ⟨_, List.mem_cons_self, rfl, rfl⟩, rfl, _, rfl, _, rfl, _, rfl, rfl, by decide, rfl⟩
  obtain ⟨-, hreader_id⟩ := TransactionManager.mem_of_getTransaction hreader
  refine ⟨db₁, db₂, reader, w, h₁, h₂, hreader, hlast, hbytes, ?_⟩
  exact committed_write_visible (emptyTables_started (n := 1) (by decide) ["t"]) (reaches_of_run h₁)
    hwriter hcommitted (reaches_of_run h₂) (hreader_id ▸ hnew) (hreader_id ▸ hreader) hlast
    (hid.trans hid₁.symm) hkind

end Rmdb
