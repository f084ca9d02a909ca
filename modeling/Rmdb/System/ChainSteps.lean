import Rmdb.System.ChainOrder

/-! The version chains stay in order as long as no transaction aborts that has written something, and in every run of such
steps. -/
namespace Rmdb

open Database StateTransition

namespace Store

variable {s s' : Store} {tab : String} {rid : Rid} {link : UndoLink} {log older : UndoLog} {rec_ : RmRecord}
  {row : RowData} {txnId : ℤ} {past : Past} {txn cur : Transaction} {ws : List WriteRecord} {new : Rid → Prop}

/-! ### Statements -/

/-- The log has become the head of the chain of a slot; the transaction has written the slot, or freed it again. -/
structure Heads (s s' : Store) (past : Past) (cur : Transaction) (log : UndoLog) (ws : List WriteRecord) (tab : String)
    (rid : Rid) : Prop where
  link : s'.txnMgr.versionInfo rid = some (s.txnMgr.nextUndoLink cur.txnId)
  wrote : s'.Wrote cur.txnId tab rid
  source : s'.Known past tab rid log.source
  alone : ∀ t, t ≠ tab → s'.occupied t rid = false
  prev : log.prevVersion = .invalid ∨
    s.txnMgr.getVersionLink rid = some log.prevVersion ∧ (s'.occupied tab rid = true → s.occupied tab rid = true)
  record : ∃ rec_, s'.slot tab rid = some rec_ ∧ s'.Known past tab rid rec_.row ∧
    (rec_.tupleMeta.ts = 0 ∧ s'.occupied tab rid = false ∨ rec_.tupleMeta.ts = cur.startTs ∧
      (log.ts = cur.startTs → cur.startTs = 0 ∨ ∃ w ∈ ws, w.tabName = tab ∧ w.rid = rid))

/-- A step of a transaction that appends an undo log; in some slots it becomes the head of the chain. -/
structure Appends (s s' : Store) (past : Past) (cur : Transaction) (log : UndoLog) (ws : List WriteRecord)
    (tab : String) (new : Rid → Prop) : Prop where
  mem : cur ∈ s.txnMgr.txnMap
  active : cur.isActive = true
  logged : s.txnMgr.Logged s'.txnMgr cur.txnId log ws
  history : ∀ w ∈ s.history, w ∈ s'.history
  events : ∀ w ∈ s'.history, w ∈ s.history ∨ w.txnId = cur.txnId
  writes : ws ≠ [] → s'.IsWriter past cur.txnId
  ts_le : log.ts ≤ cur.startTs
  prev : s.txnMgr.PointsBack log.prevVersion
  above : ∀ older, s.txnMgr.getUndoLogOptional log.prevVersion = some older →
    s.Above (s.txnMgr.nextUndoLink cur.txnId) log older
  kept : ∀ t r, ¬(t = tab ∧ new r) → s'.slot t r = s.slot t r ∧ s'.occupied t r = s.occupied t r
  unlinked : ∀ r, ¬new r → r ≠ ⟨-1, -1⟩ → s'.txnMgr.versionInfo r = s.txnMgr.versionInfo r
  heads : ∀ r, new r → s.Heads s' past cur log ws tab r

theorem ne_of_occupied (h : s.occupied tab rid = true) : rid ≠ ⟨-1, -1⟩ := by
  rintro rfl
  cases hfh : s.fhs tab with
  | none => simp [occupied, hfh] at h
  | some fh => simp [occupied, hfh, RmFileHandle.isRecord, RmFileHandle.hasPage, rmFirstRecordPage] at h

namespace Appends

section

variable (h : s.Appends s' past cur log ws tab new)
include h

theorem get (hids : s.txnMgr.Ids) (link : UndoLink) : s'.txnMgr.getUndoLogOptional link =
      if link = s.txnMgr.nextUndoLink cur.txnId then some log else s.txnMgr.getUndoLogOptional link := by
  rw [h.logged.getUndoLogOptional hids h.mem rfl, TransactionManager.nextUndoLink_eq hids h.mem]

theorem ne_next (hids : s.txnMgr.Ids) (hback : s.txnMgr.PointsBack link) : link ≠ s.txnMgr.nextUndoLink cur.txnId := by
  rw [TransactionManager.nextUndoLink_eq hids h.mem]
  exact hback.ne_next h.mem

theorem get_old (hids : s.txnMgr.Ids) (hback : s.txnMgr.PointsBack link) :
    s'.txnMgr.getUndoLogOptional link = s.txnMgr.getUndoLogOptional link := by
  rw [h.get hids, if_neg (h.ne_next hids hback)]

theorem slots (hids : s.txnMgr.Ids) (hs : s.Slots past) : s'.Slots past := by
  have hcases : ∀ t r rec_, s'.slot t r = some rec_ → s.slot t r = some rec_ ∧ s'.occupied t r = s.occupied t r ∨
      s'.Known past t r rec_.row ∧ s'.IsWriter past cur.txnId ∧ (rec_.tupleMeta.ts = 0 ∨ rec_.tupleMeta.ts = cur.startTs) := by
    intro t r rec_ hslot
    by_cases hnew : t = tab ∧ new r
    · obtain ⟨rfl, hnew⟩ := hnew
      obtain ⟨rec', hslot', hknown, hts⟩ := (h.heads r hnew).record
      obtain rfl := Option.some.inj (hslot.symm.trans hslot')
      exact .inr ⟨hknown, (h.heads r hnew).wrote.isWriter, hts.imp (fun hzero => hzero.1) fun hown => hown.1⟩
    · obtain ⟨hslot', hocc⟩ := h.kept t r hnew
      exact .inl ⟨hslot' ▸ hslot, hocc⟩
  have hstart := hids.start_lt cur h.mem
  constructor
  · intro t r rec_ hslot
    rw [h.logged.inert.nextTimestamp]
    rcases hcases t r rec_ hslot with ⟨hslot, -⟩ | ⟨-, -, hzero | hown⟩
    · exact hs.bounds t r rec_ hslot
    · exact .inr hzero.le
    · exact .inl (hown ▸ hstart)
  · intro t r rec_ hslot hpos other hother hts
    obtain ⟨old, hold, hid, hstart', -⟩ := h.logged.mem_fields hother
    rw [hid]
    rw [hstart'] at hts
    rcases hcases t r rec_ hslot with ⟨hslot, -⟩ | ⟨-, hwriter, hzero | hown⟩
    · exact (hs.owners t r rec_ hslot hpos old hold hts).mono h.history
    · omega
    · rw [hids.start_inj old hold cur h.mem (hts.trans hown)]
      exact hwriter
  · intro t r rec_ hslot hocc
    rcases hcases t r rec_ hslot with ⟨hslot, hocc'⟩ | ⟨hknown, -⟩
    · exact (hs.rows t r rec_ hslot (hocc' ▸ hocc)).mono fun _ hid => hid.mono h.history
    · exact hknown

theorem pairs (hmarks : s.txnMgr.Marks) (hs : s.Logs past) {log' : UndoLog}
    (hlog : s'.txnMgr.getUndoLogOptional link = some log')
    (holder : s'.txnMgr.getUndoLogOptional log'.prevVersion = some older) : s'.Above link log' older := by
  have hids := hmarks.ids
  rw [h.get hids] at hlog
  split at hlog
  · rename_i hlink
    obtain rfl := Option.some.inj hlog
    rw [h.get_old hids h.prev] at holder
    rw [hlink]
    exact (h.above older holder).follows h.logged.follows (owner_of_log hids holder).2
  · rw [h.get_old hids (hmarks.prev hlog)] at holder
    exact (hs.pairs link log' older hlog holder).follows h.logged.follows (owner_of_log hids holder).2

theorem tips (hmarks : s.txnMgr.Marks) (hs : s.Logs past) {t : String} {log' : UndoLog}
    (hocc : s'.occupied t rid = true) (hslot : s'.slot t rid = some rec_)
    (hhead : s'.txnMgr.versionInfo rid = some link) (hlog : s'.txnMgr.getUndoLogOptional link = some log') :
    s'.Tip t rid rec_ link log' := by
  have hids := hmarks.ids
  by_cases hnew : new rid
  · have hheads := h.heads rid hnew
    obtain rfl : t = tab := by
      by_contra hne
      rw [hheads.alone t hne] at hocc
      cases hocc
    obtain rfl := Option.some.inj (hheads.link.symm.trans hhead)
    rw [h.get hids, if_pos rfl] at hlog
    obtain rfl := Option.some.inj hlog
    obtain ⟨rec', hslot', -, hts⟩ := hheads.record
    obtain rfl := Option.some.inj (hslot.symm.trans hslot')
    rcases hts with ⟨-, hfree⟩ | ⟨hown, hwritten⟩
    · rw [hfree] at hocc
      cases hocc
    · refine ⟨.inl (hown ▸ h.ts_le), fun other hother hid hactive => ?_⟩
      obtain ⟨old, hold, hid', hstart, -, hws⟩ := h.logged.mem_fields hother
      rw [TransactionManager.nextUndoLink_eq hids h.mem] at hid
      obtain rfl := hids.id_inj old hold cur h.mem (hid'.symm.trans hid)
      rw [hstart]
      refine ⟨hown ▸ h.ts_le, hown, fun heq => (hwritten heq).imp_right fun hw => ?_⟩
      obtain ⟨w, hw, hat⟩ := hw
      exact ⟨w, by simp [hws, hw], hat⟩
  · rw [h.unlinked rid hnew (ne_of_occupied hocc)] at hhead
    obtain ⟨hslot', hocc'⟩ := h.kept t rid fun hat => hnew hat.2
    rw [hslot'] at hslot
    rw [hocc'] at hocc
    rw [h.get_old hids (hmarks.heads rid link hhead)] at hlog
    obtain ⟨⟨owner, howner, hid⟩, hlt⟩ := owner_of_log hids hlog
    obtain ⟨owner', howner', hid', -⟩ := h.logged.inert.mem' howner
    exact (hs.tips t rid rec_ link log' hocc hslot hhead hlog).follows h.logged.follows hids hlt
      ⟨owner', howner', hid'.trans hid⟩

theorem chains (hmarks : s.txnMgr.Marks) (hs : s.Logs past) : ∃ links, s'.txnMgr.Covers links ∧
      ∀ rid link log, links rid link → s'.txnMgr.getUndoLogOptional link = some log → s'.Belongs past rid link log := by
  have hids := hmarks.ids
  obtain ⟨links, hcovers, hbelongs⟩ := hs.chains
  have hheads : ∀ {rid link}, s.txnMgr.getVersionLink rid = some link → s.txnMgr.PointsBack link := fun hlink =>
    hmarks.heads _ _ (TransactionManager.versionInfo_of_getVersionLink hlink)
  -- A row that is inserted starts the chain of its slot again.
  let stays (rid : Rid) : Prop := ∀ t, s'.occupied t rid = true → s.occupied t rid = true
  refine ⟨fun rid link => links rid link ∧ s.txnMgr.PointsBack link ∧ stays rid ∨
    new rid ∧ link = s.txnMgr.nextUndoLink cur.txnId ∨ link = .invalid, ⟨?_, ?_⟩, ?_⟩
  · intro rid link hlink
    by_cases hnew : new rid
    · have hhead := TransactionManager.versionInfo_of_getVersionLink hlink
      rw [(h.heads rid hnew).link] at hhead
      exact .inr (.inl ⟨hnew, (Option.some.inj hhead).symm⟩)
    · have hsame : s'.txnMgr.getVersionLink rid = s.txnMgr.getVersionLink rid := by
        unfold TransactionManager.getVersionLink
        split
        · rfl
        · rename_i hneg
          apply h.unlinked rid hnew
          rintro rfl
          exact hneg (.inl (by decide))
      rw [hsame] at hlink
      refine .inl ⟨hcovers.head rid link hlink, hheads hlink, fun t hocc => ?_⟩
      rw [← (h.kept t rid fun hat => hnew hat.2).2]
      exact hocc
  · intro rid link log' hlink hlog
    rcases hlink with ⟨hlink, hback, hstays⟩ | ⟨hnew, rfl⟩ | rfl
    · rw [h.get_old hids hback] at hlog
      exact .inl ⟨hcovers.prev rid link log' hlink hlog, hmarks.prev hlog, hstays⟩
    · rw [h.get hids, if_pos rfl] at hlog
      obtain rfl := Option.some.inj hlog
      rcases (h.heads rid hnew).prev with hprev | ⟨hprev, hused⟩
      · exact .inr (.inr hprev)
      · refine .inl ⟨hcovers.head rid _ hprev, hheads hprev, fun t hocc => ?_⟩
        by_cases ht : t = tab
        · rw [ht] at hocc ⊢
          exact hused hocc
        · rw [(h.heads rid hnew).alone t ht] at hocc
          cases hocc
    · cases hlog
  · intro rid link log' hlink hlog
    rcases hlink with ⟨hlink, hback, hstays⟩ | ⟨hnew, rfl⟩ | rfl
    · rw [h.get_old hids hback] at hlog
      exact (hbelongs rid link log' hlink hlog).mono (fun _ hid => hid.mono h.history) fun t hocc =>
        ⟨hstays t hocc, fun w hw _ => h.history w hw⟩
    · have hhead := h.heads rid hnew
      rw [h.get hids, if_pos rfl] at hlog
      obtain rfl := Option.some.inj hlog
      have howner : (s.txnMgr.nextUndoLink cur.txnId).prevTxn = cur.txnId := rfl
      refine ⟨hhead.wrote.isWriter, hhead.source.imp_right fun hat => hat.2.2, fun t hocc => ?_⟩
      obtain rfl : t = tab := by
        by_contra hne
        rw [hhead.alone t hne] at hocc
        cases hocc
      refine ⟨hhead.wrote, fun hne => ?_⟩
      obtain ⟨htab, hrid, -⟩ := hhead.source.resolve_left hne
      exact ⟨htab, hrid⟩
    · cases hlog

/-- The step keeps the chains in order. -/
theorem inOrder (hs : s.InOrder past) (hmarks : s'.txnMgr.Marks) : s'.InOrder past := by
  have hold := hs.ledger.marks
  have hids := hold.ids
  refine ⟨?_, h.slots hids hs.slots, ?_, fun _ _ _ => h.pairs hold hs.logs, fun _ _ _ _ _ => h.tips hold hs.logs,
    h.chains hold hs.logs⟩
  · exact hs.ledger.logged hmarks h.logged (hs.ledger.not_mem_of_active h.mem h.active) h.history h.events h.writes
  · intro link log' hlog
    rw [h.logged.inert.nextTimestamp]
    rw [h.get hids] at hlog
    split at hlog
    · obtain rfl := Option.some.inj hlog
      exact .inl (h.ts_le.trans_lt (hids.start_lt cur h.mem))
    · exact hs.logs.bounds link log' hlog

end

end Appends

/-- A step that writes one slot. -/
theorem Appends.of_put {used : Bool} (hcur : cur ∈ s.txnMgr.txnMap) (hactive : cur.isActive = true)
    (hlogged : s.txnMgr.Logged s'.txnMgr cur.txnId log ws) (hput : s.Put s' tab rid rec_ used)
    (hversion : s'.txnMgr.versionInfo =
      Function.update s.txnMgr.versionInfo rid (some (s.txnMgr.nextUndoLink cur.txnId)))
    (hhist : ∀ w ∈ s.history, w ∈ s'.history) (hevents : ∀ w ∈ s'.history, w ∈ s.history ∨ w.txnId = cur.txnId)
    (hts : log.ts ≤ cur.startTs) (hprev : s.txnMgr.PointsBack log.prevVersion)
    (habove : ∀ older, s.txnMgr.getUndoLogOptional log.prevVersion = some older →
      s.Above (s.txnMgr.nextUndoLink cur.txnId) log older)
    (hhead : s.Heads s' past cur log ws tab rid) : s.Appends s' past cur log ws tab (· = rid) := by
  refine ⟨hcur, hactive, hlogged, hhist, hevents, fun _ => hhead.wrote.isWriter, hts, hprev, habove, ?_, ?_, ?_⟩
  · intro t r hne
    rw [hput.occupied, if_neg hne]
    exact ⟨hput.slot_ne hne, rfl⟩
  · intro r hr _
    rw [hversion, Function.update_of_ne hr]
  · intro r hr
    rw [hr]
    exact hhead

/-- A step that writes no slot. -/
theorem Appends.of_sameSlots (hcur : cur ∈ s.txnMgr.txnMap) (hactive : cur.isActive = true)
    (hlogged : s.txnMgr.Logged s'.txnMgr cur.txnId log []) (hslots : s.SameSlots s') (hhist : s'.history = s.history)
    (hversion : ∀ r, r ≠ ⟨-1, -1⟩ → s'.txnMgr.versionInfo r = s.txnMgr.versionInfo r)
    (hts : log.ts ≤ cur.startTs) (hprev : s.txnMgr.PointsBack log.prevVersion)
    (habove : ∀ older, s.txnMgr.getUndoLogOptional log.prevVersion = some older →
      s.Above (s.txnMgr.nextUndoLink cur.txnId) log older) :
    s.Appends s' past cur log [] tab fun _ => False := by
  refine ⟨hcur, hactive, hlogged, ?_, ?_, ?_, hts, hprev, habove, ?_, fun r _ => hversion r, ?_⟩
  · exact fun w hw => hhist ▸ hw
  · exact fun w hw => .inl (hhist ▸ hw)
  · exact fun hne => absurd rfl hne
  · exact fun t r _ => ⟨hslots.slot t r, hslots.occupied t r⟩
  · exact fun r hr => hr.elim

/-- An INSERT starts the chain of its slot, which no other table may use. -/
theorem insert_appends (h : InsertOutcome txn tab rid s s') (hledger : s.Ledger past) (hruns : s.Runs txn)
    (hactive : txn.isActive = true) (halone : ∀ t, t ≠ tab → s.occupied t rid = false) :
    ∃ cur log new, s.Appends s' past cur log [] tab new := by
  have hids := hledger.marks.ids
  obtain ⟨cur, hcur, hid, hstart, hstate⟩ := hruns.mem
  have hcur_active : cur.isActive = true := TransactionManager.isActive_congr hstate ▸ hactive
  have hinvalid := hids.pointsBack_invalid
  have hzero : ∀ {n row}, (insertLog n row).ts ≤ cur.startTs := hledger.starts cur hcur
  have habove : ∀ {n row} older, s.txnMgr.getUndoLogOptional (insertLog n row).prevVersion = some older →
      s.Above (s.txnMgr.nextUndoLink cur.txnId) (insertLog n row) older := fun older holder => by cases holder
  have hfree : ∀ {rec_ used}, s.Put s' tab rid rec_ used → ∀ t, t ≠ tab → s'.occupied t rid = false := by
    intro rec_ used hput t ht
    rw [hput.occupied, if_neg fun hat => ht hat.1]
    exact halone t ht
  cases h with
  | notInserted logged slots history version =>
    rw [← hid] at logged
    refine ⟨cur, _, _, .of_sameSlots hcur hcur_active logged slots history ?_ hzero hinvalid habove⟩
    intro r hr
    rw [version, Function.update_of_ne hr]
  | inserted slotNo free logged put history version =>
    rw [← hid] at logged version
    have hwrote : s'.Wrote txn.txnId tab rid := ⟨_, history ▸ List.mem_cons_self, rfl, by simp, rfl, rfl⟩
    have hknown : ∀ {data}, s'.Known past tab rid (insertedRecord txn tab data rid).row := .inr ⟨rfl, rfl, hwrote.isWriter⟩
    refine ⟨cur, _, _, .of_put hcur hcur_active logged put version ?_ ?_ hzero hinvalid habove ?_⟩
    · exact fun w hw => history ▸ List.mem_cons_of_mem _ hw
    · intro w hw
      rw [history] at hw
      rcases List.mem_cons.mp hw with rfl | hw
      · exact .inr hid.symm
      · exact .inl hw
    · refine ⟨?_, hid ▸ hwrote, hknown, hfree put, .inl rfl, _, put.slot_self, hknown, .inr ⟨hstart.symm, ?_⟩⟩
      · rw [version, Function.update_self]
      · exact fun heq => .inl heq.symm
  | refused file slotNo free logged put history version =>
    rw [← hid] at logged version
    have hwrote : s'.Wrote txn.txnId tab rid :=
      ⟨_, history ▸ List.mem_cons_of_mem _ List.mem_cons_self, rfl, by simp, rfl, rfl⟩
    refine ⟨cur, _, _, .of_put hcur hcur_active logged put version ?_ ?_ hzero hinvalid habove ?_⟩
    · exact fun w hw => history ▸ List.mem_cons_of_mem _ (List.mem_cons_of_mem _ hw)
    · intro w hw
      rw [history] at hw
      rcases List.mem_cons.mp hw with rfl | hw
      · exact .inr hid.symm
      · rcases List.mem_cons.mp hw with rfl | hw
        · exact .inr hid.symm
        · exact .inl hw
    · refine ⟨?_, hid ▸ hwrote, .inr ⟨rfl, rfl, hwrote.isWriter⟩, hfree put, .inl rfl, _, put.slot_self, .inl rfl,
        .inl ⟨rfl, ?_⟩⟩
      · rw [version, Function.update_self]
      · rw [put.occupied, if_pos ⟨rfl, rfl⟩]

/-! ### UPDATE and DELETE -/

section overwrite
variable {tabMeta : TabMeta} {fh : RmFileHandle} {old : RecordView} {wtype : WType}

theorem versionLink_eq (hmay : MayOverwrite s txn tab fh rid old) :
    s.txnMgr.getVersionLink rid = s.txnMgr.versionInfo rid := by
  obtain ⟨hslotNo, hpage, -⟩ := RmFileHandle.getRecordMvcc_page hmay.visible
  simp only [rmFirstRecordPage] at hpage
  unfold TransactionManager.getVersionLink
  rw [if_neg (by omega)]

/-- The log of an overwriting step: it goes in front of the chain and keeps the timestamp and the row that were found. -/
structure Succeeds (s : Store) (fh : RmFileHandle) (rid : Rid) (old : RecordView) (log : UndoLog) : Prop where
  ts : log.ts = (fh.record rid).tupleMeta.ts
  source : log.source = old.row
  prev : log.prevVersion = .invalid ∨ s.txnMgr.versionInfo rid = some log.prevVersion

theorem Succeeds.of_overwrite (hmay : MayOverwrite s txn tab fh rid old)
    (hwrite : Overwrite tabMeta s txn tab (fh.record rid) rid old wtype log rec_) : s.Succeeds fh rid old log := by
  have hget : ∀ {link : Option UndoLink}, (∀ l, link = some l → s.txnMgr.versionInfo rid = some l) →
      link.getD .invalid = .invalid ∨ s.txnMgr.versionInfo rid = some (link.getD .invalid) := by
    intro link hlink
    cases link with
    | none => exact .inl rfl
    | some l => exact .inr (hlink l rfl)
  cases hwrite with
  | update data => exact ⟨rfl, rfl, hget fun l hl => (Option.filter_eq_some_iff.mp hl).1⟩
  | delete => exact ⟨rfl, rfl, hget fun l hl => versionLink_eq hmay ▸ hl⟩

/-- The row that the executor has read belongs to the slot. -/
theorem Known.of_visible (hs : s.InOrder past) (hmay : MayOverwrite s txn tab fh rid old)
    (hocc : s.occupied tab rid = true) : s.Known past tab rid old.row := by
  obtain ⟨links, hcovers, hbelongs⟩ := hs.logs.chains
  apply RmFileHandle.getRecordMvcc_row hmay.visible (hcovers.head rid)
  · intro link log hlink hlog
    have hbelongs := hbelongs rid link log hlink hlog
    refine ⟨hcovers.prev rid link log hlink hlog, fun bytes => ?_⟩
    by_cases hinvalid : log.source.writer = invalidTxnId
    · exact .inl hinvalid
    · obtain ⟨htab, hrid⟩ := (hbelongs.row tab hocc).2 hinvalid
      exact .inr ⟨htab, hrid, hbelongs.source.resolve_left hinvalid⟩
  · exact hs.slots.rows tab rid _ (slot_eq hmay.file) hocc

/-- The new log is no older than the one that was the newest, and what is not committed of the two is of one transaction. -/
theorem Succeeds.above (h : s.Succeeds fh rid old log) (hs : s.InOrder past)
    (hmay : MayOverwrite s txn tab fh rid old) (hactive : txn.isActive = true) (hocc : s.occupied tab rid = true)
    (hstamped : ¬s.ZeroStamped txn tab rid) (holder : s.txnMgr.getUndoLogOptional log.prevVersion = some older) :
    s.Above (s.txnMgr.nextUndoLink txn.txnId) log older := by
  obtain ⟨cur, hcur, hid, hstart, hstate⟩ := hmay.runs.mem
  have hids := hs.ledger.marks.ids
  have hslot : s.slot tab rid = some (fh.record rid) := slot_eq hmay.file
  have hhead : s.txnMgr.versionInfo rid = some log.prevVersion := by
    apply h.prev.resolve_left
    intro hinvalid
    rw [hinvalid] at holder
    cases holder
  have htip := hs.logs.tips tab rid _ _ older hocc hslot hhead holder
  constructor
  · rw [h.ts]
    rcases htip.le with hle | ⟨hzero, owner, howner, howner_id, howner_start⟩
    · exact hle
    by_cases hown : owner.txnId = txn.txnId
    · obtain rfl := hids.id_inj owner howner cur hcur (hown.trans hid.symm)
      exact (htip.active owner howner howner_id (TransactionManager.isActive_congr hstate ▸ hactive)).1
    · exact absurd ⟨_, _, owner, hslot, hzero, hhead, howner, howner_id, howner_start, hown⟩ hstamped
  · intro other hother hother_id hother_active hts
    obtain ⟨-, hraw, -⟩ := htip.active other hother hother_id hother_active
    refine ⟨?_, h.ts.trans hraw⟩
    change txn.txnId = other.txnId
    by_contra hne
    rcases (hs.ledger.starts other hother).eq_or_lt with hzero | hpos
    · exact hstamped ⟨_, _, other, hslot, hraw.trans hzero.symm, hhead, hother, hother_id, hzero.symm, Ne.symm hne⟩
    · have hconflict := conflict_of_active hids (RmFileHandle.getRecordMvcc_page hmay.visible).2 hother hother_active
        (Ne.symm hne) (fun heq => hne ?_) hpos hraw
      · rw [hmay.noConflict] at hconflict
        cases hconflict
      · rw [← hid, hids.start_inj other hother cur hcur (heq.trans hstart.symm)]

variable {tabs : String → Option TabMeta} {target : Rid → Prop} {inserting : Prop} {s₀ : Store}

/-- A step of an UPDATE or a DELETE puts its log in front of the chain of the slot, if it does not fail before that. -/
theorem overwrite_appends (hstep : StmtStep tabs txn tab target inserting s₀ s s') (hs : s.InOrder past)
    (hactive : txn.isActive = true) (hno : ¬inserting) (hchainable : s.Chainable txn tab target inserting) :
    ∃ cur log ws new, s.Appends s' past cur log ws tab new := by
  have hmarks := hs.ledger.marks
  have hids := hmarks.ids
  obtain ⟨cur, hcur, hid, hstart, hstate⟩ := hstep.runs.1.mem
  have hcur_active : cur.isActive = true := TransactionManager.isActive_congr hstate ▸ hactive
  have hback : ∀ {fh rid old log}, s.Succeeds fh rid old log → s.txnMgr.PointsBack log.prevVersion := by
    intro fh rid old log hlog
    rcases hlog.prev with hinvalid | hhead
    · exact hinvalid ▸ hids.pointsBack_invalid
    · exact hmarks.heads rid _ hhead
  have hle : ∀ {fh rid old log}, MayOverwrite s txn tab fh rid old → s.Succeeds fh rid old log →
      log.ts ≤ cur.startTs := by
    intro fh rid old log hmay hlog
    rw [hlog.ts, hstart]
    exact hs.ledger.stamp_le hs.slots hmay
  have habove : ∀ {fh rid old log}, MayOverwrite s txn tab fh rid old → target rid → s.Succeeds fh rid old log →
      ∀ older, s.txnMgr.getUndoLogOptional log.prevVersion = some older →
        s.Above (s.txnMgr.nextUndoLink cur.txnId) log older := by
    intro fh rid old log hmay htarget hlog older holder
    rw [hid]
    exact hlog.above hs hmay hactive (hchainable.used hno rid htarget) (hchainable.stamped hno rid htarget) holder
  cases hstep.outcome with
  | notInserted runs logged slots history version =>
    rw [← hid] at logged
    refine ⟨cur, _, _, _, .of_sameSlots hcur hcur_active logged slots history ?_ (hs.ledger.starts cur hcur)
      hids.pointsBack_invalid fun older holder => by cases holder⟩
    intro r hr
    rw [version, Function.update_of_ne hr]
  | inserted inserting => exact absurd inserting hno
  | refused inserting => exact absurd inserting hno
  | logged may htab htarget logged slots history version =>
    rename_i fh tabMeta rid old
    have hlog : s.Succeeds fh rid old (updateLog tabMeta (fh.record rid) old (s.txnMgr.getUndoLink rid)) :=
      .of_overwrite may (.update [])
    rw [← hid] at logged
    refine ⟨cur, _, _, _, .of_sameSlots hcur hcur_active logged slots history ?_ (hle may hlog) (hback hlog)
      (habove may htarget hlog)⟩
    exact fun r _ => by rw [version]
  | overwritten may htab htarget write logged put history version =>
    rename_i fh tabMeta rid old wtype log rec_
    have hlog := Succeeds.of_overwrite may write
    have hocc := hchainable.used hno rid htarget
    have hhist : ∀ w ∈ s.history, w ∈ s'.history := fun w hw => history ▸ List.mem_cons_of_mem _ hw
    have hwrote : s'.Wrote txn.txnId tab rid :=
      ⟨_, history ▸ List.mem_cons_self, rfl, by dsimp only; split <;> simp, rfl, rfl⟩
    have hrecord : rec_.tupleMeta.ts = txn.startTs ∧ s'.Known past tab rid rec_.row := by
      cases write with
      | update data => exact ⟨rfl, .inr ⟨rfl, rfl, hwrote.isWriter⟩⟩
      | delete => exact ⟨rfl, (hs.slots.rows tab rid _ (slot_eq may.file) hocc).mono fun _ hid => hid.mono hhist⟩
    rw [← hid] at logged version
    refine ⟨cur, _, _, _, .of_put hcur hcur_active logged put version hhist ?_ (hle may hlog) (hback hlog)
      (habove may htarget hlog) ⟨?_, hid ▸ hwrote, ?_, ?_, ?_, ?_⟩⟩
    · intro w hw
      rw [history] at hw
      rcases List.mem_cons.mp hw with rfl | hw
      · exact .inr hid.symm
      · exact .inl hw
    · rw [version, Function.update_self]
    · rw [hlog.source]
      exact (Known.of_visible hs may hocc).mono fun _ hid => hid.mono hhist
    · intro t ht
      rw [put.occupied, if_neg fun hat => ht hat.1]
      exact hchainable.alone rid htarget t ht
    · rw [versionLink_eq may]
      exact hlog.prev.imp_right fun hhead => ⟨hhead, fun _ => hocc⟩
    · exact ⟨rec_, put.slot_self, hrecord.2, .inr ⟨hrecord.1.trans hstart.symm, fun _ =>
        .inr ⟨_, List.mem_singleton_self _, rfl, rfl⟩⟩⟩

/-- The later slots of a statement are still what they must be. -/
theorem Chainable.stmtStep (h : s.Chainable txn tab target inserting) (hno : ¬inserting)
    (hstep : StmtStep tabs txn tab target inserting s₀ s s') : s'.Chainable txn tab target inserting := by
  have of_logged : ∀ {log ws}, s.txnMgr.Logged s'.txnMgr txn.txnId log ws →
      (∀ t r, s'.occupied t r = s.occupied t r) →
      (∀ r link, s'.txnMgr.versionInfo r = some link →
        link.prevTxn = txn.txnId ∨ s.txnMgr.versionInfo r = some link ∧ s'.slot tab r = s.slot tab r) →
      s'.Chainable txn tab target inserting := by
    intro log ws hlogged hocc hhead
    refine ⟨fun r hr t ht => ?_, fun _ r hr => ?_, fun _ r hr => ?_⟩
    · rw [hocc]
      exact h.alone r hr t ht
    · rw [hocc]
      exact h.used hno r hr
    · rintro ⟨rec_, link, other, hslot, hts, hlink, hother, hid, hzero, hne⟩
      rcases hhead r link hlink with hown | ⟨hlink, hsame⟩
      · exact hne (hid.trans hown)
      · obtain ⟨old, hold, hid', hstart, -⟩ := hlogged.mem_fields hother
        exact h.stamped hno r hr ⟨rec_, link, old, hsame ▸ hslot, hts, hlink, hold, hid'.symm.trans hid,
          hstart.symm.trans hzero, hid' ▸ hne⟩
  have hupdate : ∀ {r r' link}, Function.update s.txnMgr.versionInfo r' (some (s.txnMgr.nextUndoLink txn.txnId)) r =
      some link → link.prevTxn = txn.txnId ∨ r ≠ r' ∧ s.txnMgr.versionInfo r = some link := by
    intro r r' link hlink
    rw [Function.update_apply] at hlink
    split at hlink
    · obtain rfl := Option.some.inj hlink
      exact .inl rfl
    · rename_i hr
      exact .inr ⟨hr, hlink⟩
  cases hstep.outcome with
  | notInserted runs logged slots history version =>
    apply of_logged logged slots.occupied
    intro r link hlink
    rw [version] at hlink
    exact (hupdate hlink).imp_right fun hold => ⟨hold.2, slots.slot tab r⟩
  | inserted inserting => exact absurd inserting hno
  | refused inserting => exact absurd inserting hno
  | logged may htab htarget logged slots history version =>
    apply of_logged logged slots.occupied
    intro r link hlink
    exact .inr ⟨version ▸ hlink, slots.slot tab r⟩
  | overwritten may htab htarget write logged put history version =>
    apply of_logged logged
    · intro t r
      rw [put.occupied]
      split
      · rename_i hat
        rw [hat.1, hat.2]
      · rfl
    · intro r link hlink
      rw [version] at hlink
      exact (hupdate hlink).imp_right fun hold => ⟨hold.2, put.slot_ne fun hat => hold.1 hat.2⟩

theorem InOrder.stmtSteps (h : s.InOrder past) (hsteps : StmtSteps tabs txn tab target inserting s₀ s s')
    (hactive : txn.isActive = true) (hno : ¬inserting) (hchainable : s.Chainable txn tab target inserting) :
    s'.InOrder past := by
  suffices s'.InOrder past ∧ s'.Chainable txn tab target inserting from this.1
  induction hsteps with
  | refl => exact ⟨h, hchainable⟩
  | tail _ hstep ih =>
    obtain ⟨h, hchainable⟩ := ih
    have hmarks := h.ledger.marks
    obtain ⟨cur, log, ws, new, happends⟩ := overwrite_appends hstep h hactive hno hchainable
    exact ⟨happends.inOrder h (hmarks.inert (hstep.chained hmarks.toChained) hstep.inert),
      hchainable.stmtStep hno hstep⟩

end overwrite

/-- An INSERT keeps the chains in order if no other table uses the slot that it gets. -/
theorem InOrder.insertStmt {db : Database} {values : List Value} (h : db.store.InOrder past)
    (hruns : db.store.Runs txn) (hactive : txn.isActive = true)
    (hmarks : (Program.runFrom (execInsert txn tab values) db).2.store.txnMgr.Marks)
    (halone : ∀ rid ∈ (Statement.insert tab values).targets db txn, ∀ t, t ≠ tab → db.store.occupied t rid = false) :
    (Program.runFrom (execInsert txn tab values) db).2.store.InOrder past := by
  obtain ⟨-, hsame | ⟨fh, tabMeta, data, hfh, -, hstore⟩⟩ := execInsert_store db txn tab values
  · rw [hsame]
    exact h
  · have hfree : ∀ t, t ≠ tab → db.store.occupied t (fh.insertRecord (insertedRecord txn tab data)).1 = false := by
      apply halone
      simp only [Statement.targets, Statement.tab, hfh, List.mem_singleton]
      exact insertRecord_rid _ _
    have houtcome : InsertOutcome txn tab (fh.insertRecord (insertedRecord txn tab data)).1 db.store
        (Program.runFrom (execInsert txn tab values) db).2.store := by
      rcases hstore with hstore | hstore
      · exact hstore ▸ insertTuple_outcome hfh data _
      · exact hstore ▸ dropInserted_outcome hfh data _
    obtain ⟨cur, log, new, happends⟩ := insert_appends houtcome h.ledger hruns hactive hfree
    exact happends.inOrder h hmarks

/-- A statement keeps the chains in order where it goes to slots that are as they must be. -/
theorem InOrder.stmt {db db' : Database} {stmt : Statement} (h : db.store.InOrder past)
    (hallowed : KeepsChains past db (.stmt txnId stmt)) (hstep : db.step (.stmt txnId stmt) = some db') :
    db'.store.InOrder past := by
  have hmarks := marks_step hstep h.ledger.marks
  simp only [step, Option.bind_eq_bind, Option.bind_eq_some_iff] at hstep
  obtain ⟨txn, htxn, hrun⟩ := hstep
  have hchainable := hallowed txn htxn
  obtain ⟨hget, hactive⟩ := activeTxn_iff.mp htxn
  have hid := (TransactionManager.mem_of_getTransaction hget).2
  have hruns : db.store.Runs txn := ⟨txn, by rw [hid, hget], rfl, rfl⟩
  obtain rfl := runProgram_eq hrun
  by_cases hinsert : stmt.isInsert
  · cases stmt with
    | insert tab values => exact h.insertStmt hruns hactive hmarks hchainable.alone
    | update => exact hinsert.elim
    | delete => exact hinsert.elim
  · exact h.stmtSteps ((stmt.exec_steps db txn).2 hruns) hactive hinsert hchainable

/-! ### Commit -/

/-- A log whose transaction commits now. -/
def Stamps (link : UndoLink) (log : UndoLog) (txn : Transaction) : Prop := link.prevTxn = txn.txnId ∧ log.ts = txn.startTs

theorem getUndoLogOptional_commit {tm : TransactionManager} {log' : UndoLog} (hids : tm.Ids) (htxn : txn ∈ tm.txnMap)
    (hlog : (tm.commitTxn txn).getUndoLogOptional link = some log') : ∃ log, tm.getUndoLogOptional link = some log ∧
      (Stamps link log txn ∧ log' = { log with ts := tm.nextTimestamp } ∨ ¬Stamps link log txn ∧ log' = log) := by
  obtain ⟨new, hnew, hid, hget⟩ := hids.commitTxn.getUndoLogOptional_iff.mp hlog
  obtain ⟨old, hold, ⟨hne, rfl⟩ | ⟨hown, rfl⟩⟩ := TransactionManager.mem_commitTxn hnew
  · exact ⟨log', hids.getUndoLogOptional_iff.mpr ⟨new, hold, hid, hget⟩, .inr ⟨fun h => hne (hid.trans h.1), rfl⟩⟩
  · obtain rfl := hids.id_inj old hold txn htxn hown
    simp only [Transaction.committedAt, List.getElem?_map, Option.map_eq_some_iff] at hget hid
    obtain ⟨log, hget, rfl⟩ := hget
    refine ⟨log, hids.getUndoLogOptional_iff.mpr ⟨old, hold, hid, hget⟩, ?_⟩
    by_cases hts : log.ts = old.startTs
    · exact .inl ⟨⟨hid.symm, hts⟩, if_pos hts⟩
    · exact .inr ⟨fun h => hts h.2, if_neg hts⟩

/-- A step that writes nothing. -/
theorem Ledger.unwritten (h : s.Ledger past) (hf : s.txnMgr.Follows s'.txnMgr) (hmarks : s'.txnMgr.Marks)
    (hwriters : ∀ id, s.IsWriter past id ↔ s'.IsWriter past id)
    (hmem : ∀ new ∈ s'.txnMgr.txnMap, new = s.txnMgr.newTransaction ∨
      ∃ old ∈ s.txnMgr.txnMap, new = old ∨ new = old.committedAt s.txnMgr.nextTimestamp) : s'.Ledger past := by
  have hids := h.marks.ids
  apply h.follows hf hmarks _ _ (fun id => (hwriters id).mp) fun id _ => (hwriters id).mpr
  · intro new hnew hne
    rcases hmem new hnew with rfl | ⟨old, hold, rfl | rfl⟩
    · exact absurd rfl hne
    · exact .inl ⟨new, hold, rfl, hne⟩
    · exact .inl ⟨old, hold, rfl, hne⟩
  · intro new hnew hstate
    rcases hmem new hnew with rfl | ⟨old, hold, rfl | rfl⟩
    · cases hstate
    · exact h.commits new hold hstate
    · exact hids.start_lt old hold
  · intro new hnew hstate
    rcases hmem new hnew with rfl | ⟨old, hold, rfl | rfl⟩
    · cases hstate
    · exact h.aborts new hold hstate
    · cases hstate

theorem isWriter_commit : (s.commit txn).IsWriter past txnId ↔ s.IsWriter past txnId := by
  simp [IsWriter, commit_history]

theorem Slots.commit (h : s.Slots past) (hids : s.txnMgr.Ids) : (s.commit txn).Slots past := by
  have hcases : ∀ t r rec', (s.commit txn).slot t r = some rec' → ∃ rec_, s.slot t r = some rec_ ∧
      rec'.row = rec_.row ∧ (rec' = rec_ ∨ rec'.tupleMeta.ts = s.txnMgr.nextTimestamp) := by
    intro t r rec' hslot
    rcases commit_slot s txn t r with ⟨hsame, -⟩ | ⟨rec_, hrec, -, hnew⟩
    · exact ⟨rec', hsame ▸ hslot, rfl, .inl rfl⟩
    · obtain rfl := Option.some.inj (hslot.symm.trans hnew)
      exact ⟨rec_, hrec, rfl, .inr rfl⟩
  have hwriters : ∀ id, s.IsWriter past id → (s.commit txn).IsWriter past id := fun _ => isWriter_commit.mpr
  have hnext : (s.commit txn).txnMgr.nextTimestamp = s.txnMgr.nextTimestamp + 1 := by
    rw [commit_txnMgr]
    rfl
  constructor
  · intro t r rec' hslot
    rw [hnext]
    obtain ⟨rec_, hrec, -, rfl | hts⟩ := hcases t r rec' hslot
    · exact (h.bounds t r rec' hrec).imp_left fun hlt => hlt.trans (Int.lt_succ _)
    · exact .inl (hts ▸ Int.lt_succ _)
  · intro t r rec' hslot hpos new hnew hstart
    rw [commit_txnMgr] at hnew
    obtain ⟨rec_, hrec, -, rfl | hts⟩ := hcases t r rec' hslot
    · obtain ⟨old, hold, ⟨-, rfl⟩ | ⟨-, rfl⟩⟩ := TransactionManager.mem_commitTxn hnew
      · exact hwriters _ (h.owners t r rec' hrec hpos new hold hstart)
      · exact hwriters _ (h.owners t r rec' hrec hpos old hold hstart)
    · obtain ⟨old, hold, ⟨-, rfl⟩ | ⟨-, rfl⟩⟩ := TransactionManager.mem_commitTxn hnew
      · exact absurd (hstart.trans hts) (hids.start_lt new hold).ne
      · exact absurd (hstart.trans hts) (hids.start_lt old hold).ne
  · intro t r rec' hslot hocc
    obtain ⟨rec_, hrec, hrow, -⟩ := hcases t r rec' hslot
    rw [commit_restamped.occupied] at hocc
    rw [hrow]
    exact (h.rows t r rec_ hrec hocc).mono hwriters

/-- What a commit does to a log beside the one that it leads to. -/
theorem Above.commit {log' older' : UndoLog} (h : s.Above link log older)
    (htxn : txn ∈ s.txnMgr.txnMap) (hactive : txn.isActive = true) (hlt : txn.startTs < s.txnMgr.nextTimestamp)
    (hlog : Stamps link log txn ∧ log' = { log with ts := s.txnMgr.nextTimestamp } ∨ ¬Stamps link log txn ∧ log' = log)
    (holder : Stamps log.prevVersion older txn ∧ older' = { older with ts := s.txnMgr.nextTimestamp } ∨
      ¬Stamps log.prevVersion older txn ∧ older' = older) : (s.commit txn).Above link log' older' := by
  have hprev : log'.prevVersion = log.prevVersion := by
    rcases hlog with ⟨-, rfl⟩ | ⟨-, rfl⟩ <;> rfl
  constructor
  · rcases holder with ⟨⟨hown, hts⟩, rfl⟩ | ⟨-, rfl⟩
    · obtain ⟨hlink, hlog_ts⟩ := h.active txn htxn hown.symm hactive hts
      rcases hlog with ⟨-, rfl⟩ | ⟨hnot, -⟩
      · exact le_rfl
      · exact absurd ⟨hlink, hlog_ts⟩ hnot
    · rcases hlog with ⟨⟨-, hts⟩, rfl⟩ | ⟨-, rfl⟩
      · exact (h.le.trans hts.le).trans hlt.le
      · exact h.le
  · intro new hnew hid hnew_active hts
    rw [commit_txnMgr] at hnew
    rw [hprev] at hid
    obtain ⟨old, hold, ⟨hne, rfl⟩ | ⟨-, rfl⟩⟩ := TransactionManager.mem_commitTxn hnew
    · have holder_eq : older' = older := by
        rcases holder with ⟨⟨hown, -⟩, -⟩ | ⟨-, rfl⟩
        · exact absurd (hid.trans hown) hne
        · rfl
      rw [holder_eq] at hts
      obtain ⟨hlink, hlog_ts⟩ := h.active new hold hid hnew_active hts
      rcases hlog with ⟨⟨hown, -⟩, -⟩ | ⟨-, rfl⟩
      · exact absurd (hlink.symm.trans hown) hne
      · exact ⟨hlink, hlog_ts⟩
    · simp [Transaction.isActive, Transaction.committedAt] at hnew_active

/-- A commit stamps a record and the newest log of its chain together. -/
theorem Tip.commit {log' : UndoLog} {rec' : RmRecord} (h : s.Tip tab rid rec_ link log) (hids : s.txnMgr.Ids)
    (htxn : txn ∈ s.txnMgr.txnMap) (hactive : txn.isActive = true) (hocc : s.occupied tab rid = true)
    (hbound : log.ts ≤ s.txnMgr.nextTimestamp)
    (hlog : Stamps link log txn ∧ log' = { log with ts := s.txnMgr.nextTimestamp } ∨ ¬Stamps link log txn ∧ log' = log)
    (hrec : rec' = rec_ ∧ ¬Restamps s txn s.txnMgr.nextTimestamp txn.writeSet tab rid rec_ ∨
      Restamps s txn s.txnMgr.nextTimestamp txn.writeSet tab rid rec_ ∧
        rec'.tupleMeta.ts = s.txnMgr.nextTimestamp) : (s.commit txn).Tip tab rid rec' link log' := by
  have hlt := hids.start_lt txn htxn
  have hself := TransactionManager.commitTxn_mem_self htxn rfl
  constructor
  · rcases hrec with ⟨rfl, hnot⟩ | ⟨-, hts⟩
    · rcases hlog with ⟨⟨hown, hlog_ts⟩, rfl⟩ | ⟨-, rfl⟩
      · -- The record was not stamped with the log only when the transaction started at 0.
        obtain ⟨-, hrec_ts, hwritten⟩ := h.active txn htxn hown.symm hactive
        rcases hwritten hlog_ts with hzero | hwritten
        · refine .inr ⟨hrec_ts.trans hzero, txn.committedAt s.txnMgr.nextTimestamp, ?_, hown.symm, hzero⟩
          rw [commit_txnMgr]
          exact hself
        · exact absurd ⟨hwritten, hocc, hrec_ts, hlt⟩ hnot
      · rcases h.le with hle | ⟨hzero, owner, howner, hid, hstart⟩
        · exact .inl hle
        · rw [commit_txnMgr]
          by_cases hown : owner.txnId = txn.txnId
          · exact .inr ⟨hzero, _, TransactionManager.commitTxn_mem_self howner hown, hid, hstart⟩
          · exact .inr ⟨hzero, owner, TransactionManager.commitTxn_mem_of_ne howner hown, hid, hstart⟩
    · rw [hts]
      rcases hlog with ⟨-, rfl⟩ | ⟨-, rfl⟩
      · exact .inl le_rfl
      · exact .inl hbound
  · intro new hnew hid hnew_active
    rw [commit_txnMgr] at hnew
    obtain ⟨old, hold, ⟨hne, rfl⟩ | ⟨-, rfl⟩⟩ := TransactionManager.mem_commitTxn hnew
    · have hlog_eq : log' = log := by
        rcases hlog with ⟨⟨hown, -⟩, -⟩ | ⟨-, rfl⟩
        · exact absurd (hid.trans hown) hne
        · rfl
      have hold_tip := h.active new hold hid hnew_active
      rw [hlog_eq]
      rcases hrec with ⟨rfl, -⟩ | ⟨⟨-, -, hown, -⟩, -⟩
      · exact hold_tip
      · exact absurd (congrArg Transaction.txnId (hids.start_inj new hold txn htxn (hold_tip.2.1.symm.trans hown))) hne
    · simp [Transaction.isActive, Transaction.committedAt] at hnew_active

theorem Logs.commit (h : s.Logs past) (hids : s.txnMgr.Ids) (hnext : 0 ≤ s.txnMgr.nextTimestamp)
    (htxn : txn ∈ s.txnMgr.txnMap) (hactive : txn.isActive = true) : (s.commit txn).Logs past := by
  have hget : ∀ {link log'}, (s.commit txn).txnMgr.getUndoLogOptional link = some log' →
      ∃ log, s.txnMgr.getUndoLogOptional link = some log ∧
        (Stamps link log txn ∧ log' = { log with ts := s.txnMgr.nextTimestamp } ∨
          ¬Stamps link log txn ∧ log' = log) := by
    intro link log' hlog
    rw [commit_txnMgr] at hlog
    exact getUndoLogOptional_commit hids htxn hlog
  have hversion : (s.commit txn).txnMgr.versionInfo = s.txnMgr.versionInfo := by
    rw [commit_txnMgr]
    rfl
  have hsame : ∀ {link} {log log' : UndoLog},
      Stamps link log txn ∧ log' = { log with ts := s.txnMgr.nextTimestamp } ∨ ¬Stamps link log txn ∧ log' = log →
      log'.prevVersion = log.prevVersion ∧ log'.source = log.source := by
    intro link log log' hlog
    rcases hlog with ⟨-, rfl⟩ | ⟨-, rfl⟩ <;> exact ⟨rfl, rfl⟩
  have hbound : ∀ {link log}, s.txnMgr.getUndoLogOptional link = some log → log.ts ≤ s.txnMgr.nextTimestamp := by
    intro link log hlog
    rcases h.bounds link log hlog with hlt | hle
    · exact hlt.le
    · exact hle.trans hnext
  constructor
  · intro link log' hlog'
    have hnext' : (s.commit txn).txnMgr.nextTimestamp = s.txnMgr.nextTimestamp + 1 := by
      rw [commit_txnMgr]
      rfl
    rw [hnext']
    obtain ⟨log, hlog, ⟨-, rfl⟩ | ⟨-, rfl⟩⟩ := hget hlog'
    · exact .inl (Int.lt_succ _)
    · exact .inl (Int.lt_add_one_of_le (hbound hlog))
  · intro link log' older' hlog' holder'
    obtain ⟨log, hlog, hlog_eq⟩ := hget hlog'
    rw [(hsame hlog_eq).1] at holder'
    obtain ⟨older, holder, holder_eq⟩ := hget holder'
    exact (h.pairs link log older hlog holder).commit htxn hactive (hids.start_lt txn htxn) hlog_eq holder_eq
  · intro t r rec' link log' hocc hslot hhead hlog'
    rw [commit_restamped.occupied] at hocc
    rw [hversion] at hhead
    obtain ⟨log, hlog, hlog_eq⟩ := hget hlog'
    rcases commit_slot s txn t r with ⟨hkept, hnot⟩ | ⟨rec_, hrec, hst, hnew⟩
    · rw [hkept] at hslot
      exact (h.tips t r rec' link log hocc hslot hhead hlog).commit hids htxn hactive hocc (hbound hlog) hlog_eq
        (.inl ⟨rfl, hnot rec' hslot⟩)
    · obtain rfl := Option.some.inj (hslot.symm.trans hnew)
      exact (h.tips t r rec_ link log hocc hrec hhead hlog).commit hids htxn hactive hocc (hbound hlog) hlog_eq
        (.inr ⟨hst, rfl⟩)
  · obtain ⟨links, hcovers, hbelongs⟩ := h.chains
    refine ⟨links, ⟨fun rid link hlink => hcovers.head rid link ?_, fun rid link log' hlink hlog' => ?_⟩,
      fun rid link log' hlink hlog' => ?_⟩
    · unfold TransactionManager.getVersionLink at hlink ⊢
      rw [← hversion]
      exact hlink
    · obtain ⟨log, hlog, hlog_eq⟩ := hget hlog'
      rw [(hsame hlog_eq).1]
      exact hcovers.prev rid link log hlink hlog
    · obtain ⟨log, hlog, hlog_eq⟩ := hget hlog'
      have hwriters : ∀ id, s.IsWriter past id → (s.commit txn).IsWriter past id := fun _ => isWriter_commit.mpr
      have hhist : ∀ w ∈ s.history, w ∈ (s.commit txn).history := by simp [commit_history]
      have hbelongs := (hbelongs rid link log hlink hlog).mono hwriters fun t hocc =>
        ⟨commit_restamped.occupied t rid ▸ hocc, fun w hw _ => hhist w hw⟩
      constructor
      · exact hbelongs.owner
      · rw [(hsame hlog_eq).2]
        exact hbelongs.source
      · rw [(hsame hlog_eq).2]
        exact hbelongs.row

theorem InOrder.commit (h : s.InOrder past) (htxn : txn ∈ s.txnMgr.txnMap) (hactive : txn.isActive = true) :
    (s.commit txn).InOrder past := by
  have hids := h.ledger.marks.ids
  refine ⟨?_, h.slots.commit hids, h.logs.commit hids h.ledger.next htxn hactive⟩
  apply h.ledger.unwritten
  · rw [commit_txnMgr]
    exact s.txnMgr.follows_commitTxn txn
  · rw [commit_txnMgr]
    exact h.ledger.marks.commitTxn
  · exact fun _ => isWriter_commit.symm
  · intro new hnew
    rw [commit_txnMgr] at hnew
    obtain ⟨old, hold, ⟨-, rfl⟩ | ⟨-, rfl⟩⟩ := TransactionManager.mem_commitTxn hnew
    · exact .inr ⟨new, hold, .inl rfl⟩
    · exact .inr ⟨old, hold, .inr rfl⟩

/-! ### The other steps -/

theorem Idle.inOrder (h : s.Idle s' past) (hs : s.InOrder past) (hledger : s'.Ledger past) : s'.InOrder past :=
  ⟨hledger, h.slots hs.slots, h.logs hs.logs hs.ledger.marks.ids hledger.marks.ids⟩

/-- A step that only drops logs and links, or adds transactions without logs. -/
theorem Idle.of_logsFrom {tm : TransactionManager} (hids : s.txnMgr.Ids) (hids' : tm.Ids) (hf : s.txnMgr.Follows tm)
    (hversion : ∀ rid link, tm.versionInfo rid = some link → s.txnMgr.versionInfo rid = some link)
    (hlogs : ∀ new ∈ tm.txnMap, new.undoLogs = [] ∨
      ∃ old ∈ s.txnMgr.txnMap, new.txnId = old.txnId ∧ new.undoLogs = old.undoLogs) :
    s.Idle { s with txnMgr := tm } past := by
  refine ⟨hf, fun _ _ _ hslot => .inl hslot, fun _ _ hocc => ⟨hocc, rfl, fun _ hw _ => hw⟩, fun _ hid => hid, hversion,
    fun link log hlog => ?_⟩
  obtain ⟨new, hnew, hid, hget⟩ := hids'.getUndoLogOptional_iff.mp hlog
  rcases hlogs new hnew with hnil | ⟨old, hold, hid', hsame⟩
  · rw [hnil] at hget
    cases hget
  · exact hids.getUndoLogOptional_iff.mpr ⟨old, hold, hid'.symm.trans hid, hsame ▸ hget⟩

theorem InOrder.begin (h : s.InOrder past) : s.begin.InOrder past := by
  have hmarks := h.ledger.marks
  have hmem : ∀ new ∈ s.txnMgr.begin.2.txnMap, new = s.txnMgr.newTransaction ∨ new ∈ s.txnMgr.txnMap :=
    fun new hnew => (TransactionManager.mem_begin.mp hnew).symm
  apply Idle.inOrder (.of_logsFrom hmarks.ids hmarks.begin.ids s.txnMgr.follows_begin (fun _ _ => id) ?_) h
  · apply h.ledger.unwritten
    · exact s.txnMgr.follows_begin
    · exact hmarks.begin
    · exact fun _ => Iff.rfl
    · exact fun new hnew => (hmem new hnew).imp_right fun hold => ⟨new, hold, .inl rfl⟩
  · intro new hnew
    rcases hmem new hnew with rfl | hold
    · exact .inl rfl
    · exact .inr ⟨new, hold, rfl, rfl⟩

theorem InOrder.garbageCollection (h : s.InOrder past) : s.garbageCollection.InOrder past := by
  have hmarks := h.ledger.marks
  have hmem : ∀ new ∈ s.txnMgr.garbageCollection.txnMap, new ∈ s.txnMgr.txnMap :=
    fun new hnew => (TransactionManager.mem_garbageCollection.mp hnew).1
  apply Idle.inOrder (.of_logsFrom hmarks.ids hmarks.garbageCollection.ids s.txnMgr.follows_garbageCollection ?_ ?_) h
  · apply h.ledger.unwritten
    · exact s.txnMgr.follows_garbageCollection
    · exact hmarks.garbageCollection
    · exact fun _ => Iff.rfl
    · exact fun new hnew => .inr ⟨new, hmem new hnew, .inl rfl⟩
  · exact fun rid link hlink => (Option.filter_eq_some_iff.mp hlink).1
  · exact fun new hnew => .inr ⟨new, hmem new hnew, rfl, rfl⟩

/-- Nothing comes of a transaction that aborts before it writes. -/
theorem InOrder.markAborted (h : s.InOrder past) (htxn : txn ∈ s.txnMgr.txnMap) (hsilent : ¬s.IsWriter past txn.txnId) :
    (s.markAborted txn).InOrder ⟨txn.txnId :: past.aborted, past.writers⟩ := by
  have hmarks := h.ledger.marks
  have hids := hmarks.ids
  have hmarks' := hmarks.markAborted htxn
  have hidle : s.Idle (s.markAborted txn) past := by
    apply Idle.of_logsFrom hids hmarks'.ids (s.txnMgr.follows_markAborted txn) fun _ _ => id
    intro new hnew
    obtain ⟨old, hold, ⟨-, rfl⟩ | ⟨-, rfl⟩⟩ := TransactionManager.mem_markAborted hnew
    · exact .inr ⟨new, hold, rfl, rfl⟩
    · exact .inr ⟨old, hold, rfl, rfl⟩
  have hslots := hidle.slots h.slots
  have hlogs := hidle.logs h.logs hids hmarks'.ids
  obtain ⟨links, hcovers, hbelongs⟩ := hlogs.chains
  refine ⟨⟨hmarks', h.ledger.next, ?_, ?_, ?_, ?_, ?_⟩, ⟨hslots.bounds, hslots.owners, hslots.rows⟩,
    ⟨hlogs.bounds, hlogs.pairs, hlogs.tips, links, hcovers, fun rid link log hlink hlog => ?_⟩⟩
  · intro new hnew
    obtain ⟨old, hold, ⟨-, rfl⟩ | ⟨-, rfl⟩⟩ := TransactionManager.mem_markAborted hnew
    · exact h.ledger.starts new hold
    · exact h.ledger.starts old hold
  · intro new hnew hstate
    obtain ⟨old, hold, ⟨-, rfl⟩ | ⟨-, rfl⟩⟩ := TransactionManager.mem_markAborted hnew
    · exact h.ledger.commits new hold hstate
    · cases hstate
  · intro new hnew hstate
    obtain ⟨old, hold, ⟨-, rfl⟩ | ⟨hown, rfl⟩⟩ := TransactionManager.mem_markAborted hnew
    · exact List.mem_cons_of_mem _ (h.ledger.aborts new hold hstate)
    · exact List.mem_cons.mpr (.inl hown)
  · intro id hid
    rcases List.mem_cons.mp hid with rfl | hid
    · obtain ⟨hnonneg, hlt⟩ := hids.bounds txn htxn
      refine ⟨hsilent, hnonneg, hlt, fun new hnew heq => ?_⟩
      obtain ⟨old, hold, ⟨hne, rfl⟩ | ⟨-, rfl⟩⟩ := TransactionManager.mem_markAborted hnew
      · exact absurd heq hne
      · rfl
    · obtain ⟨hquiet, hnonneg, hlt, hinactive⟩ := h.ledger.silent id hid
      refine ⟨hquiet, hnonneg, hlt, fun new hnew heq => ?_⟩
      obtain ⟨old, hold, ⟨-, rfl⟩ | ⟨-, rfl⟩⟩ := TransactionManager.mem_markAborted hnew
      · exact hinactive new hold heq
      · rfl
  · intro new hnew hne
    obtain ⟨old, hold, ⟨-, rfl⟩ | ⟨-, rfl⟩⟩ := TransactionManager.mem_markAborted hnew
    · exact h.ledger.wrote new hold hne
    · exact h.ledger.wrote old hold hne
  · have hbelongs := hbelongs rid link log hlink hlog
    exact ⟨hbelongs.owner, hbelongs.source, hbelongs.row⟩

/-- A table comes or goes with all its rows. -/
theorem InOrder.setTable {fh : Option RmFileHandle} (h : s.InOrder past)
    (hpast : ∀ w ∈ s.history, w.txnId ∈ past.writers)
    (hempty : ∀ file ∈ fh, ∀ r, file.isRecord r = false ∧ (file.record r).tupleMeta.ts = 0) :
    (s.setTable tab fh).InOrder past := by
  have hwriters : ∀ id, s.IsWriter past id ↔ (s.setTable tab fh).IsWriter past id := by
    intro id
    constructor
    · rintro (hid | ⟨w, hw, rfl⟩)
      · exact .inl hid
      · exact .inl (hpast w hw)
    · rintro (hid | ⟨w, hw, rfl⟩)
      · exact .inl hid
      · exact .inl (hpast w (List.mem_filter.mp hw).1)
  have hledger : (s.setTable tab fh).Ledger past := by
    apply h.ledger.unwritten
    · exact .refl _
    · exact h.ledger.marks
    · exact hwriters
    · exact fun new hnew => .inr ⟨new, hnew, .inl rfl⟩
  have hidle : s.Idle (s.setTable tab fh) past := by
    refine ⟨.refl _, ?_, ?_, fun id => (hwriters id).mp, fun _ _ => id, fun _ _ => id⟩
    · intro t r rec_ hslot
      by_cases ht : t = tab
      · obtain ⟨file, hfile, rfl⟩ : ∃ file, fh = some file ∧ file.record r = rec_ := by
          simpa [slot, Store.setTable, ht, Function.update_apply] using hslot
        exact .inr (hempty file hfile r).2
      · simp only [slot, Store.setTable, Function.update_of_ne ht] at hslot
        exact .inl hslot
    · intro t r hocc
      by_cases ht : t = tab
      · obtain ⟨file, hfile, hrecord⟩ : ∃ file, fh = some file ∧ file.isRecord r = true := by
          cases fh with
          | none => simp [occupied, Store.setTable, ht] at hocc
          | some file => exact ⟨file, rfl, by simpa [occupied, Store.setTable, ht] using hocc⟩
        rw [(hempty file hfile r).1] at hrecord
        cases hrecord
      · have hsame : (s.setTable tab fh).slot t r = s.slot t r := by simp [slot, Store.setTable, ht]
        simp only [occupied, Store.setTable, Function.update_of_ne ht] at hocc
        exact ⟨hocc, hsame, fun w hw hat => List.mem_filter.mpr ⟨hw, by simpa [hat] using ht⟩⟩
  exact hidle.inOrder h hledger

end Store

variable {db₀ db db' : Database} {past : Past}

theorem inOrder_step {action : Action} (h : db.store.InOrder past) (hallowed : KeepsChains past db action)
    (hstep : db.step action = some db') : db'.store.InOrder (past.after db.store action.aborts) := by
  have hs := h.remember
  have hwriters : ∀ w ∈ db.store.history, w.txnId ∈ (past.after db.store []).writers := fun w hw =>
    Store.isWriter_after.mp (.inr ⟨w, hw, rfl⟩)
  have hold : ∀ id, db.store.IsWriter (past.after db.store []) id → db.store.IsWriter past id := by
    rintro id (hid | hevent)
    · exact Store.isWriter_after.mpr hid
    · exact .inr hevent
  cases action with
  | begin =>
    cases hstep
    exact hs.begin
  | stmt txnId stmt => exact hs.stmt hallowed hstep
  | commit txnId =>
    obtain ⟨txn, htxn, rfl⟩ := step_commit hstep
    obtain ⟨hmem, -, hactive⟩ := activeTxn_mem htxn
    exact hs.commit hmem hactive
  | abort txnId =>
    obtain ⟨txn, store, htxn, habort, rfl⟩ := step_abort hstep
    obtain ⟨hmem, rfl, -⟩ := activeTxn_mem htxn
    -- With nothing to roll back the abort ends at once.
    have hnil : txn.writeSet = [] := by
      by_contra hne
      exact hallowed (h.ledger.wrote txn hmem hne)
    simp only [Store.abort, hnil, List.length_nil, Store.rollbackAll, Option.some.injEq] at habort
    rw [← habort]
    exact hs.markAborted hmem fun hwriter => hallowed (hold _ hwriter)
  | markAborted txnId =>
    obtain ⟨txn, htxn, rfl⟩ := step_markAborted hstep
    obtain ⟨hmem, rfl, -⟩ := activeTxn_mem htxn
    exact hs.markAborted hmem fun hwriter => hallowed (hold _ hwriter)
  | rollbackOne txnId =>
    obtain ⟨txn, store, hget, hstate, hroll, -⟩ := step_rollbackOne hstep
    obtain ⟨cur, w, fh, hcur, hw, -⟩ := Store.rollbackOne_eq hroll
    obtain rfl := Option.some.inj (hget.symm.trans hcur)
    obtain ⟨hmem, -⟩ := TransactionManager.mem_of_getTransaction hget
    have hwriter := h.ledger.wrote txn hmem (List.getLast?_isSome.mp (by simp [hw]))
    exact absurd hwriter (h.ledger.silent _ (h.ledger.aborts txn hmem hstate)).1
  | garbageCollection =>
    cases hstep
    exact hs.garbageCollection
  | createTable tab colDefs =>
    rcases step_createTable hstep with rfl | ⟨-, recordSize, hstore⟩
    · exact hs
    · rw [hstore]
      apply hs.setTable hwriters
      intro file hfile r
      obtain rfl := Option.some.inj hfile
      refine ⟨by simp [RmFileHandle.isRecord, RmFileHandle.create], ?_⟩
      unfold RmFileHandle.record
      split <;> rfl
  | dropTable tab =>
    rcases step_dropTable hstep with hsame | hstore
    · rw [hsame]
      exact hs
    · rw [hstore]
      apply hs.setTable hwriters
      exact fun file hfile => by cases hfile
  | createIndex tab colNames unique =>
    rw [step_createIndex hstep]
    exact hs

theorem inOrder_started {n : ℤ} (hstart : db.Started n)
    (hstamps : ∀ tab rid rec_, db.store.slot tab rid = some rec_ → rec_.tupleMeta.ts < n ∨ rec_.tupleMeta.ts ≤ 0) :
    db.store.InOrder ⟨[], []⟩ := by
  have hmarks : db.store.txnMgr.Marks := hstart.txnMgr ▸ TransactionManager.marks_init n
  have hmap : db.store.txnMgr.txnMap = [] := by rw [hstart.txnMgr]; rfl
  have hnext : db.store.txnMgr.nextTimestamp = n := by rw [hstart.txnMgr]; rfl
  have hlogs : ∀ link log, db.store.txnMgr.getUndoLogOptional link ≠ some log := by
    intro link log hlog
    obtain ⟨txn, htxn, -⟩ := hmarks.ids.getUndoLogOptional_iff.mp hlog
    simp [hmap] at htxn
  refine ⟨⟨hmarks, hnext ▸ hstart.nonneg, ?_, ?_, ?_, ?_, ?_⟩, ⟨hnext ▸ hstamps, ?_, ?_⟩, ⟨?_, ?_, ?_, ?_⟩⟩
  · simp [hmap]
  · simp [hmap]
  · simp [hmap]
  · exact fun id hid => by cases hid
  · simp [hmap]
  · simp [hmap]
  · exact fun tab rid rec_ hslot _ => .inl (hstart.unwritten tab rid rec_ hslot).2
  · exact fun link log hlog => absurd hlog (hlogs link log)
  · exact fun link log _ hlog => absurd hlog (hlogs link log)
  · exact fun _ _ _ link log _ _ _ hlog => absurd hlog (hlogs link log)
  · refine ⟨fun _ _ => True, ⟨fun _ _ _ => trivial, fun _ _ _ _ _ => trivial⟩, ?_⟩
    exact fun _ link log _ hlog => absurd hlog (hlogs link log)

/-- Version chains are ordered in time, and only writes of their own row are on them, in every run in which no transaction
aborts that has written something, no other table uses the slots that statements go to, and UPDATE and DELETE find rows that
are not stamped with 0 by mistake. -/
theorem version_chains_ordered {n : ℤ} (hstart : db₀.Started n)
    (hstamps : ∀ tab rid rec_, db₀.store.slot tab rid = some rec_ → rec_.tupleMeta.ts < n ∨ rec_.tupleMeta.ts ≤ 0)
    (hrun : db₀.RunsTo KeepsChains db past) : db.ChainsInOrder past := by
  suffices db.store.InOrder past from this.chainsInOrder
  induction hrun with
  | start => exact inOrder_started hstart hstamps
  | step _ hallowed hstep ih => exact inOrder_step ih hallowed hstep

/-! ### Runs on one table -/

/-- Transactions that do not start at 0 write one table, rows that are there, and do not abort. -/
def OneTable (tab : String) (db : Database) : Action → Prop
  | .begin => True
  | .stmt txnId stmt => stmt.tab = tab ∧ (∀ txn ∈ db.store.txnMgr.txnMap, txn.startTs ≠ 0) ∧
    (stmt.isInsert ∨ ∀ txn ∈ db.activeTxn txnId, ∀ rid ∈ stmt.targets db txn, db.store.occupied tab rid = true)
  | .commit _ => True
  | .garbageCollection => True
  | _ => False

instance (tab : String) (db : Database) (action : Action) : Decidable (OneTable tab db action) :=
  match action with
  | .begin | .commit _ | .garbageCollection => isTrue trivial
  | .stmt _ _ => by dsimp only [OneTable]; infer_instance
  | .abort _ | .markAborted _ | .rollbackOne _ | .createTable _ _ | .dropTable _ | .createIndex _ _ _ => isFalse id

/-- No other table is open. -/
def Store.OnlyTable (s : Store) (tab : String) : Prop := ∀ t, t ≠ tab → s.fhs t = none

theorem Store.OnlyTable.of_recordSize {s s' : Store} {tab : String} (h : s.OnlyTable tab)
    (hsize : ∀ t, (s'.fhs t).map (·.recordSize) = (s.fhs t).map (·.recordSize)) : s'.OnlyTable tab := by
  intro t ht
  have hnone := hsize t
  rw [h t ht] at hnone
  simpa using hnone

theorem StmtSteps.onlyTable {tabs : String → Option TabMeta} {txn : Transaction} {tab t : String} {target : Rid → Prop}
    {inserting : Prop} {s₀ s s' : Store} (hsteps : StmtSteps tabs txn tab target inserting s₀ s s') (h : s.OnlyTable t) :
    s'.OnlyTable t := by
  induction hsteps with
  | refl => exact h
  | tail _ hstep ih =>
    cases hstep.outcome with
    | notInserted runs logged slots history version => exact ih.of_recordSize slots.recordSize
    | inserted inserting first runs file target slotNo free logged put => exact ih.of_recordSize put.recordSize
    | refused inserting first runs file target slotNo free logged put => exact ih.of_recordSize put.recordSize
    | logged may htab target logged slots => exact ih.of_recordSize slots.recordSize
    | overwritten may htab target write logged put => exact ih.of_recordSize put.recordSize

theorem OneTable.step {tab : String} {action : Action} (h : OneTable tab db action) (halone : db.store.OnlyTable tab)
    (hstep : db.step action = some db') : KeepsChains past db action ∧ db'.store.OnlyTable tab := by
  cases action with
  | begin =>
    cases hstep
    exact ⟨trivial, halone⟩
  | stmt txnId stmt =>
    obtain ⟨rfl, hpos, hused⟩ := h
    obtain ⟨txn, htxn, -, hsteps⟩ := step_stmt hstep
    refine ⟨fun txn' htxn' => ⟨fun rid _ t ht => ?_, fun hno rid hrid => ?_, fun _ rid _ => ?_⟩, hsteps.onlyTable halone⟩
    · simp [Store.occupied, halone t ht]
    · exact hused.resolve_left hno txn' htxn' rid hrid
    · rintro ⟨rec_, link, other, -, -, -, hother, -, hzero, -⟩
      exact hpos other hother hzero
  | commit txnId =>
    obtain ⟨txn, htxn, rfl⟩ := step_commit hstep
    exact ⟨trivial, halone.of_recordSize Store.commit_restamped.recordSize⟩
  | garbageCollection =>
    cases hstep
    exact ⟨trivial, halone⟩
  | _ => exact h.elim

theorem runsTo_of_run {allowed : Past → Database → Action → Prop} {checked : Database → Action → Prop}
    [∀ db action, Decidable (checked db action)] {inv : Database → Prop}
    (hstep : ∀ {past db db' action}, checked db action → inv db → db.step action = some db' →
      allowed past db action ∧ inv db') {actions : List Action} (hrun : db₀.RunsTo allowed db past) (hinv : inv db)
    (h : db.run checked actions = some db') : ∃ past', db₀.RunsTo allowed db' past' := by
  induction actions generalizing db past with
  | nil =>
    cases h
    exact ⟨past, hrun⟩
  | cons action actions ih =>
    obtain ⟨hchecked, mid, hmid, hrest⟩ := run_cons h
    obtain ⟨hallowed, hinv'⟩ := hstep hchecked hinv hmid
    exact ih (.step hrun hallowed hmid) hinv' hrest

/-- A row is inserted, updated, updated twice and updated once more, each by a transaction of its own. -/
theorem version_chains_ordered_updated : ∃ db past, (emptyTables 1 ["t"]).RunsTo KeepsChains db past ∧
    db.store.txnMgr.getVersionLink ⟨1, 0⟩ = some ⟨3, 0⟩ ∧ db.ChainsInOrder past := by
  have hany : ((emptyTables 1 ["t"]).run (OneTable "t")
      [.begin, .stmt 0 (.insert "t" [.int 1, .int 5]), .commit 0, .begin, .stmt 1 (updateB "t" 1 7), .commit 1,
        .begin, .stmt 2 (updateB "t" 1 8), .stmt 2 (updateB "t" 1 9), .commit 2, .begin,
        .stmt 3 (updateB "t" 1 4)]).any (·.store.txnMgr.getVersionLink ⟨1, 0⟩ = some ⟨3, 0⟩) = true := by
    decide +kernel
  obtain ⟨db, hrun, hlink⟩ := (Option.any_eq_true _ _).mp hany
  have halone : (emptyTables 1 ["t"]).store.OnlyTable "t" := fun t ht => by simp [emptyTables, ht]
  obtain ⟨past, hrunsTo⟩ := runsTo_of_run OneTable.step .start halone hrun
  exact ⟨db, past, hrunsTo, of_decide_eq_true hlink, version_chains_ordered (emptyTables_started (n := 1) (by decide) ["t"])
    (fun tab rid rec_ hslot => .inr (emptyTables_fresh 1 ["t"] tab rid rec_ hslot).le) hrunsTo⟩

/-- A transaction that has updated a row twice aborts; its logs stay on the chain, newer ones than the next. -/
theorem not_version_chains_ordered : ¬∀ (db₀ db : Database) (n : ℤ) (past : Past), db₀.Started n →
    (∀ tab rid rec_, db₀.store.slot tab rid = some rec_ → rec_.tupleMeta.ts < n ∨ rec_.tupleMeta.ts ≤ 0) →
    db₀.RunsTo (fun _ _ _ => True) db past → db.ChainsInOrder past := by
  intro hclaim
  have hany : ((emptyTables 1 ["t"]).run (fun _ _ => True)
      [.begin, .stmt 0 (.insert "t" [.int 1, .int 5]), .commit 0, .begin, .stmt 1 (updateB "t" 1 7),
        .stmt 1 (updateB "t" 1 8), .abort 1, .begin, .stmt 2 (updateB "t" 1 9)]).any (fun db =>
          db.store.txnMgr.getVersionLink ⟨1, 0⟩ = some ⟨2, 0⟩ ∧
            (db.store.txnMgr.getUndoLogOptional ⟨2, 0⟩).any fun log =>
              (db.store.txnMgr.getUndoLogOptional log.prevVersion).any (log.ts < ·.ts)) = true := by
    decide +kernel
  obtain ⟨db, hrun, hdb⟩ := (Option.any_eq_true _ _).mp hany
  obtain ⟨hlink, hlogs⟩ := of_decide_eq_true hdb
  obtain ⟨log, hlog, holder⟩ := (Option.any_eq_true _ _).mp hlogs
  obtain ⟨older, holder, hlt⟩ := (Option.any_eq_true _ _).mp holder
  obtain ⟨past, hrunsTo⟩ := runsTo_of_run (fun _ _ _ => ⟨trivial, trivial⟩) .start trivial hrun
  have hordered := hclaim _ db 1 past (emptyTables_started (n := 1) (by decide) ["t"])
    (fun tab rid rec_ hslot => .inr (emptyTables_fresh 1 ["t"] tab rid rec_ hslot).le) hrunsTo
  have hle := hordered.times ⟨1, 0⟩ ⟨2, 0⟩ log older ⟨_, hlink, .refl⟩ hlog holder
  exact absurd hle (not_le.mpr (of_decide_eq_true hlt))

end Rmdb
