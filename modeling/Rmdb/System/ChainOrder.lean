import Rmdb.System.VersionChains

/-! The undo logs along a version chain: their timestamps fall from the newest log to the oldest, and all of them come from
writes to the row. -/
namespace Rmdb

open Database StateTransition

namespace TransactionManager

variable {tm tm' : TransactionManager} {rid : Rid} {link : UndoLink} {log : UndoLog}

/-- The links that a walk along the chain of a slot comes to. -/
def OnChain (tm : TransactionManager) (rid : Rid) (link : UndoLink) : Prop :=
  ∃ head, tm.getVersionLink rid = some head ∧ Reaches tm.prevLink head link

/-- Sets of links that contain the heads of the chains and what the walks come to from there. -/
structure Covers (tm : TransactionManager) (links : Rid → UndoLink → Prop) : Prop where
  head : ∀ rid link, tm.getVersionLink rid = some link → links rid link
  prev : ∀ rid link log, links rid link → tm.getUndoLogOptional link = some log → links rid log.prevVersion

theorem Covers.onChain {links : Rid → UndoLink → Prop} (h : tm.Covers links) (hchain : tm.OnChain rid link) :
    links rid link := by
  obtain ⟨head, hhead, hreach⟩ := hchain
  exact tm.goes_prevLink.of_reaches (h.prev rid) hreach (h.head rid head hhead)

theorem versionInfo_of_getVersionLink (h : tm.getVersionLink rid = some link) : tm.versionInfo rid = some link := by
  unfold getVersionLink at h
  split at h
  · cases h
  · exact h

end TransactionManager

/-! ### What is claimed, and when it holds -/

def Action.aborts : Action → List ℤ
  | .abort txnId => [txnId]
  | .markAborted txnId => [txnId]
  | _ => []

/-- What a run has seen: the transactions that have aborted, and those with writes in the histories of its states. -/
structure Past where
  aborted : List ℤ
  writers : List ℤ

def Past.after (past : Past) (s : Store) (aborts : List ℤ) : Past :=
  ⟨aborts ++ past.aborted, s.history.map (·.txnId) ++ past.writers⟩

/-- The states that a run reaches, with what it has seen before. -/
inductive Database.RunsTo (allowed : Past → Database → Action → Prop) (db₀ : Database) : Database → Past → Prop where
  | start : RunsTo allowed db₀ db₀ ⟨[], []⟩
  | step {db db' : Database} {past : Past} {action : Action} (hrun : RunsTo allowed db₀ db past)
    (hallowed : allowed past db action) (hstep : db.step action = some db') :
    RunsTo allowed db₀ db' (past.after db.store action.aborts)

namespace Store

/-- The transaction has written a slot, even if the write was taken back at once or the table has been dropped. -/
def IsWriter (s : Store) (past : Past) (txnId : ℤ) : Prop := txnId ∈ past.writers ∨ ∃ w ∈ s.history, w.txnId = txnId

def Wrote (s : Store) (txnId : ℤ) (tab : String) (rid : Rid) : Prop :=
  ∃ w ∈ s.history, w.txnId = txnId ∧ w.kind ≠ .undo ∧ w.tab = tab ∧ w.rid = rid

/-- A record with timestamp 0 whose newest undo log is that of another transaction with start timestamp 0. -/
def ZeroStamped (s : Store) (txn : Transaction) (tab : String) (rid : Rid) : Prop :=
  ∃ rec_ link other, s.slot tab rid = some rec_ ∧ rec_.tupleMeta.ts = 0 ∧ s.txnMgr.versionInfo rid = some link ∧
    other ∈ s.txnMgr.txnMap ∧ other.txnId = link.prevTxn ∧ other.startTs = 0 ∧ other.txnId ≠ txn.txnId

/-- What the slots must be like that a statement goes to. -/
structure Chainable (s : Store) (txn : Transaction) (tab : String) (target : Rid → Prop) (inserting : Prop) : Prop where
  alone : ∀ rid, target rid → ∀ t, t ≠ tab → s.occupied t rid = false
  used : ¬inserting → ∀ rid, target rid → s.occupied tab rid = true
  stamped : ¬inserting → ∀ rid, target rid → ¬s.ZeroStamped txn tab rid

end Store

/-- Only transactions that have written nothing abort, and statements go to slots whose number no other table uses; an UPDATE
or a DELETE finds a row there, with a timestamp that is not 0 by mistake. -/
def KeepsChains (past : Past) (db : Database) : Action → Prop
  | .stmt txnId stmt => ∀ txn ∈ db.activeTxn txnId,
    db.store.Chainable txn stmt.tab (· ∈ stmt.targets db txn) stmt.isInsert
  | .abort txnId => ¬db.store.IsWriter past txnId
  | .markAborted txnId => ¬db.store.IsWriter past txnId
  | _ => True

/-- The timestamps on every chain fall towards the older logs, and every version on it belongs to the row that is in the
slot: no aborted transaction has appended it or written the row in it. -/
structure Database.ChainsInOrder (db : Database) (past : Past) : Prop where
  times : ∀ rid link log older, db.store.txnMgr.OnChain rid link → db.store.txnMgr.getUndoLogOptional link = some log →
    db.store.txnMgr.getUndoLogOptional log.prevVersion = some older → older.ts ≤ log.ts
  unaborted : ∀ rid link log, db.store.txnMgr.OnChain rid link → db.store.txnMgr.getUndoLogOptional link = some log →
    link.prevTxn ∉ past.aborted ∧ log.source.writer ∉ past.aborted
  written : ∀ rid link log tab, db.store.txnMgr.OnChain rid link →
    db.store.txnMgr.getUndoLogOptional link = some log → db.store.occupied tab rid = true →
    db.store.Wrote link.prevTxn tab rid ∧
      (log.source.writer ≠ invalidTxnId → log.source.tab = tab ∧ log.source.rid = rid)

namespace Store

variable {s s' : Store} {tab : String} {rid : Rid} {link : UndoLink} {log : UndoLog} {rec_ : RmRecord} {row : RowData}
  {txnId : ℤ} {past : Past} {txn : Transaction}

theorem IsWriter.mono (h : s.IsWriter past txnId) (hhist : ∀ w ∈ s.history, w ∈ s'.history) :
    s'.IsWriter past txnId := by
  rcases h with hpast | ⟨w, hw, hid⟩
  · exact .inl hpast
  · exact .inr ⟨w, hhist w hw, hid⟩

theorem Wrote.isWriter (h : s.Wrote txnId tab rid) : s.IsWriter past txnId := by
  obtain ⟨w, hw, hid, -⟩ := h
  exact .inr ⟨w, hw, hid⟩

/-! ### The invariant -/

/-- The transaction table beside the history of writes. -/
structure Ledger (s : Store) (past : Past) : Prop where
  marks : s.txnMgr.Marks
  next : 0 ≤ s.txnMgr.nextTimestamp
  starts : ∀ txn ∈ s.txnMgr.txnMap, 0 ≤ txn.startTs
  commits : ∀ txn ∈ s.txnMgr.txnMap, txn.state = .committed → txn.startTs < txn.commitTs
  aborts : ∀ txn ∈ s.txnMgr.txnMap, txn.state = .aborted → txn.txnId ∈ past.aborted
  silent : ∀ id ∈ past.aborted, ¬s.IsWriter past id ∧ 0 ≤ id ∧ id < s.txnMgr.nextTxnId ∧
    ∀ txn ∈ s.txnMgr.txnMap, txn.txnId = id → txn.isActive = false
  wrote : ∀ txn ∈ s.txnMgr.txnMap, txn.writeSet ≠ [] → s.IsWriter past txn.txnId

/-- The row was found in the slot at the start, or a transaction has written it there. -/
def Known (s : Store) (past : Past) (tab : String) (rid : Rid) (row : RowData) : Prop :=
  row.writer = invalidTxnId ∨ row.tab = tab ∧ row.rid = rid ∧ s.IsWriter past row.writer

structure Slots (s : Store) (past : Past) : Prop where
  bounds : ∀ tab rid rec_, s.slot tab rid = some rec_ →
    rec_.tupleMeta.ts < s.txnMgr.nextTimestamp ∨ rec_.tupleMeta.ts ≤ 0
  owners : ∀ tab rid rec_, s.slot tab rid = some rec_ → 0 < rec_.tupleMeta.ts → ∀ txn ∈ s.txnMgr.txnMap,
    txn.startTs = rec_.tupleMeta.ts → s.IsWriter past txn.txnId
  rows : ∀ tab rid rec_, s.slot tab rid = some rec_ → s.occupied tab rid = true → s.Known past tab rid rec_.row

/-- The record in a slot beside the newest log of its chain. -/
structure Tip (s : Store) (tab : String) (rid : Rid) (rec_ : RmRecord) (link : UndoLink) (log : UndoLog) : Prop where
  le : log.ts ≤ rec_.tupleMeta.ts ∨
    rec_.tupleMeta.ts = 0 ∧ ∃ txn ∈ s.txnMgr.txnMap, txn.txnId = link.prevTxn ∧ txn.startTs = 0
  /-- A commit will stamp them both. -/
  active : ∀ txn ∈ s.txnMgr.txnMap, txn.txnId = link.prevTxn → txn.isActive = true →
    log.ts ≤ rec_.tupleMeta.ts ∧ rec_.tupleMeta.ts = txn.startTs ∧
      (log.ts = txn.startTs → txn.startTs = 0 ∨ txn.hasWritten tab rid)

/-- A log beside the one that it leads to. -/
structure Above (s : Store) (link : UndoLink) (log older : UndoLog) : Prop where
  le : older.ts ≤ log.ts
  active : ∀ txn ∈ s.txnMgr.txnMap, txn.txnId = log.prevVersion.prevTxn → txn.isActive = true → older.ts = txn.startTs →
    link.prevTxn = txn.txnId ∧ log.ts = txn.startTs

/-- A log on the chain of a slot. -/
structure Belongs (s : Store) (past : Past) (rid : Rid) (link : UndoLink) (log : UndoLog) : Prop where
  owner : s.IsWriter past link.prevTxn
  source : log.source.writer = invalidTxnId ∨ s.IsWriter past log.source.writer
  row : ∀ tab, s.occupied tab rid = true → s.Wrote link.prevTxn tab rid ∧
    (log.source.writer ≠ invalidTxnId → log.source.tab = tab ∧ log.source.rid = rid)

structure Logs (s : Store) (past : Past) : Prop where
  bounds : ∀ link log, s.txnMgr.getUndoLogOptional link = some log → log.ts < s.txnMgr.nextTimestamp ∨ log.ts ≤ 0
  pairs : ∀ link log older, s.txnMgr.getUndoLogOptional link = some log →
    s.txnMgr.getUndoLogOptional log.prevVersion = some older → s.Above link log older
  tips : ∀ tab rid rec_ link log, s.occupied tab rid = true → s.slot tab rid = some rec_ →
    s.txnMgr.versionInfo rid = some link → s.txnMgr.getUndoLogOptional link = some log → s.Tip tab rid rec_ link log
  chains : ∃ links, s.txnMgr.Covers links ∧
    ∀ rid link log, links rid link → s.txnMgr.getUndoLogOptional link = some log → s.Belongs past rid link log

structure InOrder (s : Store) (past : Past) : Prop where
  ledger : s.Ledger past
  slots : s.Slots past
  logs : s.Logs past

theorem Known.not_mem_aborted (h : row.writer = invalidTxnId ∨ s.IsWriter past row.writer) (hledger : s.Ledger past) :
    row.writer ∉ past.aborted := by
  intro hmem
  obtain ⟨hsilent, hnonneg, -⟩ := hledger.silent _ hmem
  rcases h with hinvalid | hwriter
  · rw [hinvalid] at hnonneg
    exact absurd hnonneg (by decide)
  · exact hsilent hwriter

/-! ### Steps that change no chain -/

end Store

namespace TransactionManager

/-- Transactions may end, be dropped or write more; new ones begin later. -/
structure Follows (tm tm' : TransactionManager) : Prop where
  nextTxnId : tm.nextTxnId ≤ tm'.nextTxnId
  next : tm.nextTimestamp ≤ tm'.nextTimestamp
  mem : ∀ new ∈ tm'.txnMap, (∃ old ∈ tm.txnMap, old.txnId = new.txnId ∧ old.startTs = new.startTs ∧
      (new.isActive = true → old.isActive = true) ∧ ∀ tab rid, old.hasWritten tab rid → new.hasWritten tab rid) ∨
    tm.nextTxnId ≤ new.txnId ∧ tm.nextTimestamp ≤ new.startTs

variable {tm tm' : TransactionManager} {txn : Transaction} {txnId : ℤ} {log : UndoLog} {ws : List WriteRecord}

theorem Logged.follows (h : tm.Logged tm' txnId log ws) : tm.Follows tm' := by
  refine ⟨h.inert.nextTxnId.ge, h.inert.nextTimestamp.ge, fun new hnew => .inl ?_⟩
  obtain ⟨old, hold, hid, hstart, hstate, hws⟩ := h.mem_fields hnew
  refine ⟨old, hold, hid.symm, hstart.symm, fun hactive => isActive_congr hstate ▸ hactive, fun tab rid hw => ?_⟩
  obtain ⟨w, hw, hat⟩ := hw
  exact ⟨w, hws ▸ List.mem_append_left _ hw, hat⟩

theorem follows_begin (tm : TransactionManager) : tm.Follows tm.begin.2 := by
  refine ⟨Int.le_add_one le_rfl, Int.le_add_one le_rfl, fun new hnew => ?_⟩
  rcases mem_begin.mp hnew with hnew | rfl
  · exact .inl ⟨new, hnew, rfl, rfl, id, fun _ _ => id⟩
  · exact .inr ⟨le_rfl, le_rfl⟩

theorem follows_commitTxn (tm : TransactionManager) (txn : Transaction) : tm.Follows (tm.commitTxn txn) := by
  refine ⟨le_rfl, Int.le_add_one le_rfl, fun new hnew => .inl ?_⟩
  obtain ⟨old, hold, ⟨-, rfl⟩ | ⟨-, rfl⟩⟩ := mem_commitTxn hnew
  · exact ⟨new, hold, rfl, rfl, id, fun _ _ => id⟩
  · refine ⟨old, hold, rfl, rfl, fun hactive => ?_, fun _ _ => id⟩
    simp [Transaction.isActive, Transaction.committedAt] at hactive

theorem follows_markAborted (tm : TransactionManager) (txn : Transaction) :
    tm.Follows (tm.markAborted txn.txnId txn.startTs) := by
  refine ⟨le_rfl, le_rfl, fun new hnew => .inl ?_⟩
  obtain ⟨old, hold, ⟨-, rfl⟩ | ⟨-, rfl⟩⟩ := mem_markAborted hnew
  · exact ⟨new, hold, rfl, rfl, id, fun _ _ => id⟩
  · refine ⟨old, hold, rfl, rfl, fun hactive => ?_, fun _ _ => id⟩
    simp [Transaction.isActive] at hactive

theorem follows_garbageCollection (tm : TransactionManager) : tm.Follows tm.garbageCollection := by
  refine ⟨le_rfl, le_rfl, fun new hnew => .inl ?_⟩
  exact ⟨new, (mem_garbageCollection.mp hnew).1, rfl, rfl, id, fun _ _ => id⟩

theorem Follows.refl (tm : TransactionManager) : tm.Follows tm :=
  ⟨le_rfl, le_rfl, fun new hnew => .inl ⟨new, hnew, rfl, rfl, id, fun _ _ => id⟩⟩

end TransactionManager

namespace Store

variable {s s' : Store} {tab : String} {rid : Rid} {link : UndoLink} {log older : UndoLog} {rec_ : RmRecord}
  {row : RowData} {txnId : ℤ} {past past' : Past} {txn : Transaction}

theorem Known.mono (h : s.Known past tab rid row) (hwriters : ∀ id, s.IsWriter past id → s'.IsWriter past' id) :
    s'.Known past' tab rid row := by
  rcases h with hinvalid | ⟨htab, hrid, hwriter⟩
  · exact .inl hinvalid
  · exact .inr ⟨htab, hrid, hwriters _ hwriter⟩

theorem Belongs.mono (h : s.Belongs past rid link log) (hwriters : ∀ id, s.IsWriter past id → s'.IsWriter past' id)
    (hused : ∀ tab, s'.occupied tab rid = true → s.occupied tab rid = true ∧
      ∀ w ∈ s.history, w.tab = tab → w ∈ s'.history) : s'.Belongs past' rid link log := by
  constructor
  · exact hwriters _ h.owner
  · exact h.source.imp_right (hwriters _)
  · intro tab hocc
    obtain ⟨hocc, hhist⟩ := hused tab hocc
    obtain ⟨⟨w, hw, hid, hkind, htab, hrid⟩, hsource⟩ := h.row tab hocc
    exact ⟨⟨w, hhist w hw htab, hid, hkind, htab, hrid⟩, hsource⟩

theorem Above.follows (h : s.Above link log older) (hf : s.txnMgr.Follows s'.txnMgr)
    (hlt : log.prevVersion.prevTxn < s.txnMgr.nextTxnId) : s'.Above link log older := by
  refine ⟨h.le, fun new hnew hid hactive hts => ?_⟩
  rcases hf.mem new hnew with ⟨old, hold, hid', hstart, hact, -⟩ | ⟨hlate, -⟩
  · obtain ⟨hlink, hlog⟩ := h.active old hold (hid'.trans hid) (hact hactive) (hts.trans hstart.symm)
    exact ⟨hlink.trans hid', hlog.trans hstart⟩
  · omega

theorem Tip.follows (h : s.Tip tab rid rec_ link log) (hf : s.txnMgr.Follows s'.txnMgr) (hids : s.txnMgr.Ids)
    (hlt : link.prevTxn < s.txnMgr.nextTxnId) (howner : ∃ new ∈ s'.txnMgr.txnMap, new.txnId = link.prevTxn) :
    s'.Tip tab rid rec_ link log := by
  constructor
  · rcases h.le with hle | ⟨hzero, txn, htxn, hid, hstart⟩
    · exact .inl hle
    · obtain ⟨new, hnew, hid'⟩ := howner
      rcases hf.mem new hnew with ⟨old, hold, hid'', hstart', -⟩ | ⟨hlate, -⟩
      · rw [hids.id_inj old hold txn htxn (hid''.trans (hid'.trans hid.symm))] at hstart'
        exact .inr ⟨hzero, new, hnew, hid', hstart'.symm.trans hstart⟩
      · omega
  · intro new hnew hid hactive
    rcases hf.mem new hnew with ⟨old, hold, hid', hstart, hact, hwritten⟩ | ⟨hlate, -⟩
    · obtain ⟨hle, hts, hwrote⟩ := h.active old hold (hid'.trans hid) (hact hactive)
      rw [hstart] at hts hwrote
      exact ⟨hle, hts, fun heq => (hwrote heq).imp_right (hwritten tab rid)⟩
    · omega

theorem owner_of_log (hids : s.txnMgr.Ids) (hlog : s.txnMgr.getUndoLogOptional link = some log) :
    (∃ txn ∈ s.txnMgr.txnMap, txn.txnId = link.prevTxn) ∧ link.prevTxn < s.txnMgr.nextTxnId := by
  obtain ⟨txn, htxn, hid, -⟩ := hids.getUndoLogOptional_iff.mp hlog
  exact ⟨⟨txn, htxn, hid⟩, hid ▸ (hids.bounds txn htxn).2⟩

theorem isWriter_after {aborts : List ℤ} : s.IsWriter past txnId ↔ txnId ∈ (past.after s aborts).writers := by
  simp [IsWriter, Past.after, or_comm]

/-- The writers of a state still count after the next step. -/
theorem InOrder.remember (h : s.InOrder past) : s.InOrder (past.after s []) := by
  have hwriters : ∀ id, s.IsWriter past id → s.IsWriter (past.after s []) id := fun id hid => .inl (isWriter_after.mp hid)
  obtain ⟨links, hcovers, hbelongs⟩ := h.logs.chains
  constructor
  · refine { h.ledger with
      silent := fun id hid => ?_
      wrote := fun txn htxn hne => hwriters _ (h.ledger.wrote txn htxn hne) }
    obtain ⟨hquiet, hrest⟩ := h.ledger.silent id hid
    refine ⟨fun hwriter => hquiet ?_, hrest⟩
    rcases hwriter with hpast | hevent
    · exact isWriter_after.mpr hpast
    · exact .inr hevent
  · exact { h.slots with
      owners := fun t r rec_ hslot hpos txn htxn hts => hwriters _ (h.slots.owners t r rec_ hslot hpos txn htxn hts)
      rows := fun t r rec_ hslot hocc => (h.slots.rows t r rec_ hslot hocc).mono hwriters }
  · exact { h.logs with
      chains := ⟨links, hcovers, fun rid link log hlink hlog =>
        (hbelongs rid link log hlink hlog).mono hwriters fun _ hocc => ⟨hocc, fun _ hw _ => hw⟩⟩ }

/-- A step that writes no slot and leads to no other log. A table may go with its history. -/
structure Idle (s s' : Store) (past : Past) : Prop where
  follows : s.txnMgr.Follows s'.txnMgr
  slot : ∀ tab rid rec_, s'.slot tab rid = some rec_ → s.slot tab rid = some rec_ ∨ rec_.tupleMeta.ts = 0
  used : ∀ tab rid, s'.occupied tab rid = true → s.occupied tab rid = true ∧ s'.slot tab rid = s.slot tab rid ∧
    ∀ w ∈ s.history, w.tab = tab → w ∈ s'.history
  writers : ∀ id, s.IsWriter past id → s'.IsWriter past id
  head : ∀ rid link, s'.txnMgr.versionInfo rid = some link → s.txnMgr.versionInfo rid = some link
  log : ∀ link log, s'.txnMgr.getUndoLogOptional link = some log → s.txnMgr.getUndoLogOptional link = some log

theorem Idle.slots (h : s.Idle s' past) (hs : s.Slots past) : s'.Slots past := by
  constructor
  · intro tab rid rec_ hslot
    rcases h.slot tab rid rec_ hslot with hslot | hzero
    · exact (hs.bounds tab rid rec_ hslot).imp_left fun hlt => hlt.trans_le h.follows.next
    · exact .inr hzero.le
  · intro tab rid rec_ hslot hpos new hnew hstart
    rcases h.slot tab rid rec_ hslot with hslot | hzero
    · rcases h.follows.mem new hnew with ⟨old, hold, hid, hstart', -⟩ | ⟨-, hlate⟩
      · exact h.writers _ (hid ▸ hs.owners tab rid rec_ hslot hpos old hold (hstart'.trans hstart))
      · rcases hs.bounds tab rid rec_ hslot with hlt | hle
        · omega
        · omega
    · omega
  · intro tab rid rec_ hslot hocc
    obtain ⟨hocc, hsame, -⟩ := h.used tab rid hocc
    exact (hs.rows tab rid rec_ (hsame ▸ hslot) hocc).mono h.writers

theorem Idle.logs (h : s.Idle s' past) (hs : s.Logs past) (hids : s.txnMgr.Ids) (hids' : s'.txnMgr.Ids) : s'.Logs past := by
  obtain ⟨links, hcovers, hbelongs⟩ := hs.chains
  constructor
  · intro link log hlog
    exact (hs.bounds link log (h.log link log hlog)).imp_left fun hlt => hlt.trans_le h.follows.next
  · intro link log older hlog holder
    have hold := h.log _ older holder
    exact (hs.pairs link log older (h.log link log hlog) hold).follows h.follows (owner_of_log hids hold).2
  · intro tab rid rec_ link log hocc hslot hhead hlog
    obtain ⟨hocc, hsame, -⟩ := h.used tab rid hocc
    have hold := h.log link log hlog
    exact (hs.tips tab rid rec_ link log hocc (hsame ▸ hslot) (h.head rid link hhead) hold).follows h.follows hids
      (owner_of_log hids hold).2 (owner_of_log hids' hlog).1
  · refine ⟨links, ⟨fun rid link hlink => hcovers.head rid link ?_, fun rid link log hlink hlog =>
      hcovers.prev rid link log hlink (h.log link log hlog)⟩, fun rid link log hlink hlog => ?_⟩
    · unfold TransactionManager.getVersionLink at hlink ⊢
      split at hlink
      · cases hlink
      · rename_i hrid
        rw [if_neg hrid]
        exact h.head rid link hlink
    · refine (hbelongs rid link log hlink (h.log link log hlog)).mono h.writers fun tab hocc => ?_
      obtain ⟨hocc, -, hhist⟩ := h.used tab rid hocc
      exact ⟨hocc, hhist⟩

theorem Ledger.follows (h : s.Ledger past) (hf : s.txnMgr.Follows s'.txnMgr) (hmarks : s'.txnMgr.Marks)
    (hcommits : ∀ new ∈ s'.txnMgr.txnMap, new.state = .committed → new.startTs < new.commitTs)
    (haborts : ∀ new ∈ s'.txnMgr.txnMap, new.state = .aborted → new.txnId ∈ past.aborted)
    (hwriters : ∀ id, s.IsWriter past id → s'.IsWriter past id)
    (hsilent : ∀ id ∈ past.aborted, s'.IsWriter past id → s.IsWriter past id)
    (hwrites : ∀ new ∈ s'.txnMgr.txnMap, new.writeSet ≠ [] →
      (∃ old ∈ s.txnMgr.txnMap, old.txnId = new.txnId ∧ old.writeSet ≠ []) ∨ s'.IsWriter past new.txnId) :
    s'.Ledger past := by
  refine ⟨hmarks, h.next.trans hf.next, ?_, hcommits, haborts, ?_, ?_⟩
  · intro new hnew
    rcases hf.mem new hnew with ⟨old, hold, -, hstart, -⟩ | ⟨-, hlate⟩
    · exact hstart ▸ h.starts old hold
    · exact h.next.trans hlate
  · intro id hid
    obtain ⟨hquiet, hnonneg, hlt, hinactive⟩ := h.silent id hid
    refine ⟨fun hwriter => hquiet (hsilent id hid hwriter), hnonneg, hlt.trans_le hf.nextTxnId, fun new hnew heq => ?_⟩
    rcases hf.mem new hnew with ⟨old, hold, hid', -, hactive, -⟩ | ⟨hlate, -⟩
    · have hold_inactive := hinactive old hold (hid'.trans heq)
      by_contra hne
      rw [hactive (by simpa using hne)] at hold_inactive
      cases hold_inactive
    · omega
  · intro new hnew hne
    rcases hwrites new hnew hne with ⟨old, hold, hid, hne⟩ | hwriter
    · exact hwriters _ (hid ▸ h.wrote old hold hne)
    · exact hwriter

/-- A step in which a transaction appends an undo log. -/
theorem Ledger.logged {ws : List WriteRecord} (h : s.Ledger past) (hmarks : s'.txnMgr.Marks)
    (hlogged : s.txnMgr.Logged s'.txnMgr txnId log ws) (hactive : txnId ∉ past.aborted)
    (hhist : ∀ w ∈ s.history, w ∈ s'.history) (hevents : ∀ w ∈ s'.history, w ∈ s.history ∨ w.txnId = txnId)
    (hws : ws ≠ [] → s'.IsWriter past txnId) : s'.Ledger past := by
  apply h.follows hlogged.follows hmarks _ _ fun id hwriter => hwriter.mono hhist
  · intro id hid hwriter
    rcases hwriter with hpast | ⟨w, hw, rfl⟩
    · exact .inl hpast
    · rcases hevents w hw with hw | hown
      · exact .inr ⟨w, hw, rfl⟩
      · exact absurd (hown ▸ hid) hactive
  · intro new hnew hne
    obtain ⟨old, hold, hid, -, -, hwrites⟩ := hlogged.mem_fields hnew
    by_cases hown : old.txnId = txnId
    · rw [hid, hown]
      by_cases hnil : ws = []
      · rw [hnil, ite_self, List.append_nil] at hwrites
        exact .inl ⟨old, hold, hown, hwrites ▸ hne⟩
      · exact .inr (hws hnil)
    · rw [if_neg hown, List.append_nil] at hwrites
      exact .inl ⟨old, hold, hid.symm, hwrites ▸ hne⟩
  · intro new hnew hstate
    obtain ⟨old, hold, -, hstart, hst, hcommit⟩ := hlogged.inert.mem hnew
    rw [hstart, hcommit]
    exact h.commits old hold (hst.symm.trans hstate)
  · intro new hnew hstate
    obtain ⟨old, hold, hid, -, hst, -⟩ := hlogged.inert.mem hnew
    rw [hid]
    exact h.aborts old hold (hst.symm.trans hstate)

theorem Ledger.not_mem_of_active (h : s.Ledger past) (htxn : txn ∈ s.txnMgr.txnMap) (hactive : txn.isActive = true) :
    txn.txnId ∉ past.aborted := by
  intro hmem
  have hinactive := (h.silent _ hmem).2.2.2 txn htxn rfl
  rw [hactive] at hinactive
  cases hinactive

/-! ### Writing a slot -/

/-- Whoever passes the conflict check starts no earlier than the version that he overwrites. -/
theorem Ledger.stamp_le {fh : RmFileHandle} {old : RecordView} (h : s.Ledger past) (hslots : s.Slots past)
    (hmay : MayOverwrite s txn tab fh rid old) : (fh.record rid).tupleMeta.ts ≤ txn.startTs := by
  obtain ⟨cur, hcur, hid, hstart, -⟩ := hmay.runs.mem
  have hids := h.marks.ids
  have hslot : s.slot tab rid = some (fh.record rid) := slot_eq hmay.file
  by_cases hpos : (fh.record rid).tupleMeta.ts ≤ 0
  · exact hpos.trans (hstart ▸ h.starts cur hcur)
  have hlt : (fh.record rid).tupleMeta.ts < s.txnMgr.nextTimestamp := by
    rcases hslots.bounds tab rid _ hslot with hlt | hle
    · exact hlt
    · exact absurd hle hpos
  have hmeta := hasTupleMeta_of_lt (by omega) hlt
  have hpage := (RmFileHandle.getRecordMvcc_page hmay.visible).2
  rcases hids.noConflict_cases hpage hmeta hcur hid hstart hmay.noConflict with
    hzero | hown | ⟨owner, howner, hts, hstate⟩ | ⟨owner, howner, hts, hstate, hlate⟩ | ⟨-, hle⟩
  · omega
  · exact hown.le
  · exact absurd (hslots.owners tab rid _ hslot (by omega) owner howner hts)
      (h.silent _ (h.aborts owner howner hstate)).1
  · have hends := h.commits owner howner hstate
    split at hlate
    · omega
    · exact hlate
  · exact hle

end Store

namespace RmFileHandle

variable {fh : RmFileHandle} {tm : TransactionManager} {startTs : ℤ} {rid : Rid} {view : RecordView} {row : RowData}
  {links : UndoLink → Prop} {P : RowData → Prop}

/-- A row that the walk along a chain puts together comes from the row of a log. -/
theorem walkHistory_row (hprev : ∀ link log, links link → tm.getUndoLogOptional link = some log →
      links log.prevVersion ∧ ∀ bytes, P { log.source with bytes }) {fuel : ℕ} {link : UndoLink} (hlink : links link)
    (h : fh.walkHistory tm startTs fuel link = some (some row)) : P row := by
  induction fuel generalizing link with
  | zero => cases h
  | succ fuel ih =>
    rw [walkHistory] at h
    cases hlog : tm.getUndoLogOptional link with
    | none =>
      rw [hlog] at h
      cases h
    | some log =>
      obtain ⟨hnext, hrow⟩ := hprev link log hlink hlog
      rw [hlog] at h
      dsimp only at h
      split at h
      · split at h
        · cases h
        · split at h
          · rename_i row' hreconstruct
            obtain rfl : row' = row := Option.some.inj (Option.some.inj h)
            unfold reconstructTupleFromUndoLog at hreconstruct
            split at hreconstruct
            · cases hreconstruct
            · obtain rfl := Option.some.inj hreconstruct
              exact hrow _
          · exact ih hnext h
      · exact ih hnext h

/-- A row that is read is the one in the slot, or comes from a log of the chain. -/
theorem getRecordMvcc_row (h : fh.getRecordMvcc tm startTs rid = .ok (some view))
    (hhead : ∀ link, tm.getVersionLink rid = some link → links link)
    (hprev : ∀ link log, links link → tm.getUndoLogOptional link = some log →
      links log.prevVersion ∧ ∀ bytes, P { log.source with bytes }) (hslot : P (fh.record rid).row) : P view.row := by
  obtain ⟨hslotNo, hpage⟩ := getRecordMvcc_page h
  have hfallback : fh.currentFallback tm startTs rid = some view → P view.row := by
    intro hview
    obtain ⟨record, hrecord, hview⟩ := Option.bind_eq_some_iff.mp hview
    simp only [getRecord, if_pos hpage, Option.some.injEq] at hrecord
    dsimp only at hview
    split at hview
    · obtain rfl := Option.some.inj hview
      rw [← hrecord]
      exact hslot
    · cases hview
  rw [getRecordMvcc_eq hslotNo hpage] at h
  split at h
  · split at h
    · cases h
    · obtain rfl := Option.some.inj (Except.ok.inj h)
      exact hslot
  · split at h
    · cases h
    · have hview := Except.ok.inj h
      unfold getVisibleVersionFromHistory at hview
      split at hview
      · exact hfallback hview
      · rename_i link hlink
        split at hview
        · rename_i found hwalk
          obtain ⟨row, rfl, rfl⟩ := Option.map_eq_some_iff.mp hview
          exact walkHistory_row hprev (hhead link hlink) hwalk
        · exact hfallback hview

end RmFileHandle

/-- What the invariant says about the chains. -/
theorem Store.InOrder.chainsInOrder {db : Database} {past : Past} (h : db.store.InOrder past) :
    db.ChainsInOrder past := by
  obtain ⟨links, hcovers, hbelongs⟩ := h.logs.chains
  constructor
  · intro rid link log older _ hlog holder
    exact (h.logs.pairs link log older hlog holder).le
  · intro rid link log hchain hlog
    have hlink := hbelongs rid link log (hcovers.onChain hchain) hlog
    exact ⟨fun hmem => (h.ledger.silent _ hmem).1 hlink.owner, Known.not_mem_aborted hlink.source h.ledger⟩
  · intro rid link log tab hchain hlog hused
    exact (hbelongs rid link log (hcovers.onChain hchain) hlog).row tab hused

end Rmdb
