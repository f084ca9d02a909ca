import Rmdb.System.FullUndo
import Rmdb.System.SnapshotVersions

/-! The steps of statements, commits and aborts at one slot: what the logs of its chain keep, what a rollback puts back, and
what the readers are shown before the step and after it. -/
namespace Rmdb

open Database TransactionManager

namespace TransactionManager

variable {tm tm' : TransactionManager} {txn owner : Transaction} {image : RmRecord} {link : UndoLink} {log : UndoLog}
  {readTs : ℤ}

/-- An undo log stands for the record that was overwritten, unless the writer of that has aborted. -/
def Preserves (tm : TransactionManager) (log : UndoLog) (image : RmRecord) : Prop :=
  image.tupleMeta.ts ≠ 0 ∧ (∃ owner ∈ tm.txnMap, owner.startTs = image.tupleMeta.ts ∧ owner.state = .aborted) ∨
    image.tupleMeta.isDeleted = false ∧ log.isDeleted = false ∧ log.tuple ≠ [] ∧ log.source = image.row

/-- From the link on the chain goes through logs of the transaction, the last of which keeps the record that it found. -/
inductive Behind (tm : TransactionManager) (txn : Transaction) (image : RmRecord) : UndoLink → Prop
  | here {link : UndoLink} {log : UndoLog} (howner : link.prevTxn = txn.txnId) (hlog : tm.getUndoLogOptional link = some log)
    (hts : log.ts = image.tupleMeta.ts) (hkeeps : tm.Preserves log image) : Behind tm txn image link
  | there {link : UndoLink} {log : UndoLog} (howner : link.prevTxn = txn.txnId) (hlog : tm.getUndoLogOptional link = some log)
    (hts : log.ts = txn.startTs) (hnext : Behind tm txn image log.prevVersion) : Behind tm txn image link

theorem Behind.mono {txn' : Transaction} (h : tm.Behind txn image link) (hid : txn'.txnId = txn.txnId)
    (hstart : txn'.startTs = txn.startTs) (hgrows : tm.Grows tm')
    (hget : ∀ link log, link.prevTxn = txn.txnId → tm.getUndoLogOptional link = some log →
      tm'.getUndoLogOptional link = some log) : tm'.Behind txn' image link := by
  induction h with
  | here howner hlog hts hkeeps =>
    refine .here (howner.trans hid.symm) (hget _ _ howner hlog) hts (hkeeps.imp_left fun haborted => ⟨haborted.1, ?_⟩)
    obtain ⟨-, owner, hmem, howner_start, haborted⟩ := haborted
    obtain ⟨new, hnew, -, hnew_start, hfin⟩ := hgrows.keeps owner hmem
    have hstate := (hfin (by simp [Transaction.isActive, haborted])).1
    exact ⟨new, hnew, hnew_start.trans howner_start, hstate.trans haborted⟩
  | there howner hlog hts _ ih =>
    exact .there (howner.trans hid.symm) (hget _ _ howner hlog) (hts.trans hstart.symm) ih

/-- To those who see the record that was found, the chain shows it. -/
theorem Behind.shownFrom_eq (h : tm.Behind txn image link) (hc : tm.Chained) (hinv : tm.Inv)
    (hunseen : ¬tm.Sees readTs txn.startTs) (hseen : tm.Sees readTs image.tupleMeta.ts)
    (hreader : ∀ reader ∈ tm.txnMap, reader.startTs = readTs → reader.state ≠ .aborted) :
    tm.shownFrom readTs link = if image.tupleMeta.isDeleted then none else some image.row := by
  induction h with
  | @here link log _ hlog hts hkeeps =>
    rcases hkeeps with ⟨hne, owner, howner, hstart, haborted⟩ | ⟨himage, hdel, htuple, hsource⟩
    · exfalso
      rcases (hinv.sees_iff howner (.inl hstart) hne).mp hseen with hown | ⟨-, hstate⟩
      · exact hreader owner howner (hstart.trans hown) haborted
      · rw [haborted] at hstate
        cases hstate
    · have hshown : tm.Sees readTs log.ts ∧ (log.isDeleted = true ∨ log.tuple ≠ []) := ⟨hts ▸ hseen, .inr htuple⟩
      rw [hc.shownFrom_eq hlog, if_pos hshown, hdel, himage, hsource]
  | @there link log _ hlog hts _ ih =>
    have hpasses : ¬(tm.Sees readTs log.ts ∧ (log.isDeleted = true ∨ log.tuple ≠ [])) := by
      rw [hts]
      exact fun hshown => hunseen hshown.1
    rw [hc.shownFrom_eq hlog, if_neg hpasses, ih]

/-! ### Steps in which nobody commits -/

/-- Transactions keep their logs and do not commit; new ones have no logs. -/
structure Quiet (tm tm' : TransactionManager) : Prop where
  grows : tm.Grows tm'
  versionInfo : tm'.versionInfo = tm.versionInfo
  keeps : ∀ old ∈ tm.txnMap, ∃ new ∈ tm'.txnMap, new.txnId = old.txnId ∧ new.undoLogs = old.undoLogs
  mem : ∀ new ∈ tm'.txnMap, new.undoLogs = [] ∧ tm.nextTimestamp ≤ new.startTs ∧ new.state ≠ .committed ∨
    ∃ old ∈ tm.txnMap, new.txnId = old.txnId ∧ new.startTs = old.startTs ∧ new.undoLogs = old.undoLogs ∧
      (new.isActive = true → old.isActive = true) ∧ (new.state = .committed ↔ old.state = .committed)

theorem Quiet.refl (tm : TransactionManager) : tm.Quiet tm where
  grows := .refl tm
  versionInfo := rfl
  keeps old hold := ⟨old, hold, rfl, rfl⟩
  mem new hnew := .inr ⟨new, hnew, rfl, rfl, rfl, id, .rfl⟩

theorem quiet_begin (tm : TransactionManager) : tm.Quiet tm.begin.2 where
  grows := grows_begin tm
  versionInfo := rfl
  keeps old hold := ⟨old, mem_begin.mpr (.inl hold), rfl, rfl⟩
  mem new hnew := by
    rcases mem_begin.mp hnew with hnew | rfl
    · exact .inr ⟨new, hnew, rfl, rfl, rfl, id, .rfl⟩
    · exact .inl ⟨rfl, le_rfl, by simp [newTransaction]⟩

/-- The transaction table after an abort, up to the running transactions. -/
theorem Inv.quiet_abort {n : ℕ} (h : tm.Inv) (htxn : txn ∈ tm.txnMap) (hactive : txn.isActive = true)
    (htm : tm' = (tm.markAborted txn.txnId txn.startTs).modifyTxn txn.txnId fun txn =>
      { txn with writeSet := txn.writeSet.take (txn.writeSet.length - n) }) : tm.Quiet tm' := by
  have hmap : tm'.txnMap = tm.txnMap.map fun cur => if cur.txnId = txn.txnId then
      { cur with state := .aborted, writeSet := cur.writeSet.take (cur.writeSet.length - n) } else cur := by
    simp only [htm, modifyTxn, markAborted_txnMap, List.map_map]
    congr 1
    funext cur
    by_cases hid : cur.txnId = txn.txnId <;> simp [hid]
  have hgrows : tm.Grows tm' := by
    refine (h.grows_markAborted htxn hactive).trans (Inert.grows ?_)
    rw [htm]
    exact .modifyTxn (f := fun txn => { txn with writeSet := txn.writeSet.take (txn.writeSet.length - n) })
      fun _ => ⟨rfl, rfl, rfl, rfl⟩
  refine ⟨hgrows, by rw [htm]; rfl, fun old hold => ?_, fun new hnew => .inr ?_⟩
  · rw [hmap]
    by_cases hid : old.txnId = txn.txnId
    · exact ⟨_, List.mem_map.mpr ⟨old, hold, if_pos hid⟩, rfl, rfl⟩
    · exact ⟨old, List.mem_map.mpr ⟨old, hold, if_neg hid⟩, rfl, rfl⟩
  · rw [hmap] at hnew
    obtain ⟨old, hold, rfl⟩ := List.mem_map.mp hnew
    refine ⟨old, hold, ?_⟩
    split
    · rename_i hid
      obtain rfl := h.id_inj old hold txn htxn hid
      have hopen : old.state ≠ .committed := fun hstate => by simp [Transaction.isActive, hstate] at hactive
      exact ⟨rfl, rfl, rfl, fun _ => hactive, iff_of_false (by simp) hopen⟩
    · exact ⟨rfl, rfl, rfl, id, .rfl⟩

theorem Inv.mem_abort {new : Transaction} (h : tm.Inv) (htxn : txn ∈ tm.txnMap)
    (htm : tm' = (tm.markAborted txn.txnId txn.startTs).modifyTxn txn.txnId fun cur =>
      { cur with writeSet := cur.writeSet.take (cur.writeSet.length - txn.writeSet.length) })
    (hnew : new ∈ tm'.txnMap) : new ∈ tm.txnMap ∧ new.txnId ≠ txn.txnId ∨
      new = { txn with state := .aborted, writeSet := [] } := by
  rw [htm] at hnew
  obtain ⟨marked, hmarked, rfl⟩ := mem_modifyTxn hnew
  obtain ⟨old, hold, ⟨hne, rfl⟩ | ⟨hid, rfl⟩⟩ := mem_markAborted hmarked
  · rw [if_neg hne]
    exact .inl ⟨hold, hne⟩
  · obtain rfl := h.id_inj old hold txn htxn hid
    simp

theorem Quiet.getUndoLogOptional (h : tm.Quiet tm') (hids : tm.Ids) (hids' : tm'.Ids)
    (hlog : tm.getUndoLogOptional link = some log) : tm'.getUndoLogOptional link = some log := by
  obtain ⟨old, hold, hid, hlog⟩ := hids.getUndoLogOptional_iff.mp hlog
  obtain ⟨new, hnew, hid', hlogs⟩ := h.keeps old hold
  exact hids'.getUndoLogOptional_iff.mpr ⟨new, hnew, hid'.trans hid, by rw [hlogs, hlog]⟩

theorem Quiet.sees_iff {ts : ℤ} (h : tm.Quiet tm') (hinv : tm.Inv) (hinv' : tm'.Inv)
    (hstamped : ts ≠ 0 → ∃ owner ∈ tm.txnMap, owner.HasStamp ts) : tm'.Sees readTs ts ↔ tm.Sees readTs ts := by
  by_cases hzero : ts = 0
  · rw [hzero]
    exact ⟨fun _ => sees_zero, fun _ => sees_zero⟩
  obtain ⟨owner, howner, hstamp⟩ := hstamped hzero
  obtain ⟨new, hnew, hid, hstamp', -⟩ := h.grows.hasStamp howner hstamp
  rw [hinv.sees_iff howner hstamp hzero, hinv'.sees_iff hnew hstamp' hzero]
  rcases h.mem new hnew with ⟨-, hlate, -⟩ | ⟨old, hold, hid', -, -, -, hstate⟩
  · obtain ⟨later, hlater, hid', hstart, -⟩ := h.grows.keeps owner howner
    obtain rfl := hinv'.id_inj later hlater new hnew (hid'.trans hid.symm)
    have hlt := hinv.start_lt owner howner
    omega
  · obtain rfl := hinv.id_inj old hold owner howner (hid'.symm.trans hid)
    rw [hstate]

theorem Inert.sees_iff {ts : ℤ} (h : tm.Inert tm') : tm'.Sees readTs ts ↔ tm.Sees readTs ts := by
  unfold Sees
  rw [h.isCommittedBeforeReadTs]

end TransactionManager

/-- The first entry of a transaction for a slot, which a rollback puts back last. -/
def Transaction.image (txn : Transaction) (tab : String) (rid : Rid) : Option WriteRecord :=
  txn.writeSet.find? (·.isAt tab rid)

namespace Store

variable {s s' : Store} {tab t : String} {rid r : Rid} {txn cur reader : Transaction} {w : WriteRecord} {readTs : ℤ}
  {log : UndoLog} {ws : List WriteRecord} {fh : RmFileHandle} {rec_ : RmRecord} {link : UndoLink}

/-- Only the logs of an active transaction carry its start timestamp. -/
def LogsOwned (s : Store) : Prop :=
  ∀ owner ∈ s.txnMgr.txnMap, ∀ log ∈ owner.undoLogs, log.ts ≠ 0 → ∀ txn ∈ s.txnMgr.txnMap, txn.isActive = true →
    txn.startTs = log.ts → txn.txnId = owner.txnId

/-- An active transaction that has written the slot holds it, and its logs keep what it has found there. -/
structure Pending (s : Store) (txn : Transaction) (tab : String) (rid : Rid) (w : WriteRecord) : Prop where
  occupied : s.occupied tab rid = true
  slot : ∃ rec_, s.slot tab rid = some rec_ ∧ rec_.tupleMeta.ts = txn.startTs
  behind : ∃ link, s.txnMgr.versionInfo rid = some link ∧ s.txnMgr.Behind txn w.record link

/-- What the steps keep of a slot. -/
structure Tracked (s : Store) (tab : String) (rid : Rid) : Prop extends s.Attributed where
  owned : s.LogsOwned
  kinds : ∀ txn ∈ s.txnMgr.txnMap, ∀ w ∈ txn.writeSet, w.wtype ≠ .insertTuple
  ended : ∀ txn ∈ s.txnMgr.txnMap, txn.state = .aborted → txn.image tab rid = none
  pending : ∀ txn ∈ s.txnMgr.txnMap, txn.isActive = true → ∀ w, txn.image tab rid = some w → s.Pending txn tab rid w

theorem Attributed.stamped_log (h : s.Attributed) (hlog : s.txnMgr.getUndoLogOptional link = some log)
    (hts : log.ts ≠ 0) : ∃ owner ∈ s.txnMgr.txnMap, owner.HasStamp log.ts := by
  obtain ⟨txn, htxn, -, hmem⟩ := h.inv.toIds.getUndoLogOptional_iff.mp hlog
  obtain ⟨owner, howner, hstamp, -⟩ := (h.logs txn htxn log (List.mem_of_getElem? hmem)).stamped hts
  exact ⟨owner, howner, hstamp⟩

theorem Attributed.stamped_slot (h : s.Attributed) (hslot : s.slot tab rid = some rec_) (hts : rec_.tupleMeta.ts ≠ 0) :
    ∃ owner ∈ s.txnMgr.txnMap, owner.HasStamp rec_.tupleMeta.ts := by
  obtain ⟨owner, howner, hstamp, -⟩ := (h.slots tab rid rec_ hslot).attributes.stamped hts
  exact ⟨owner, howner, hstamp⟩

/-- The same version is shown where the slot and the head of its chain stay and the reader sees the same timestamps. -/
theorem Attributed.shownAt_congr (h : s.Attributed) (h' : s'.Attributed)
    (hsees : ∀ rec_, s.slot tab rid = some rec_ →
      (s'.txnMgr.Sees readTs rec_.tupleMeta.ts ↔ s.txnMgr.Sees readTs rec_.tupleMeta.ts))
    (hlogs : ∀ link log, s.txnMgr.getUndoLogOptional link = some log →
      ∃ new, s'.txnMgr.getUndoLogOptional link = some new ∧ SameLog s.txnMgr s'.txnMgr readTs log new)
    (hslot : s'.slot tab rid = s.slot tab rid) (hocc : s'.occupied tab rid = s.occupied tab rid)
    (hversion : s'.txnMgr.versionInfo rid = s.txnMgr.versionInfo rid) :
    s'.shownAt readTs tab rid = s.shownAt readTs tab rid := by
  cases hrec : s.slot tab rid with
  | none =>
    unfold shownAt
    rw [hslot, hrec]
  | some rec_ =>
    rw [shownAt_eq hrec, shownAt_eq (hslot.trans hrec), hocc, hversion]
    simp only [hsees rec_ hrec]
    cases hlink : s.txnMgr.versionInfo rid with
    | none => rfl
    | some link =>
      rw [Option.bind_some, Option.bind_some,
        (h.heads rid link hlink).shownFrom_congr h.chained h'.chained hlogs]

theorem Attributed.sameLogs_quiet (h : s.Attributed) (h' : s'.Attributed) (hquiet : s.txnMgr.Quiet s'.txnMgr)
    (link : UndoLink) (log : UndoLog) (hlog : s.txnMgr.getUndoLogOptional link = some log) :
    ∃ new, s'.txnMgr.getUndoLogOptional link = some new ∧ SameLog s.txnMgr s'.txnMgr readTs log new :=
  ⟨log, hquiet.getUndoLogOptional h.inv.toIds h'.inv.toIds hlog, rfl, rfl, rfl, rfl,
    hquiet.sees_iff h.inv h'.inv (h.stamped_log hlog)⟩

theorem LogsOwned.quiet (h : s.LogsOwned) (hattr : s.Attributed) (hquiet : s.txnMgr.Quiet s'.txnMgr) : s'.LogsOwned := by
  intro owner howner log hlog hts txn htxn hactive hstart
  rcases hquiet.mem owner howner with ⟨hnil, -⟩ | ⟨oldOwner, holdOwner, hid, -, hlogs, -⟩
  · rw [hnil] at hlog
    cases hlog
  · rw [hlogs] at hlog
    rcases hquiet.mem txn htxn with ⟨-, hlate, -⟩ | ⟨old, hold, hid', hstart', -, hact, -⟩
    · obtain ⟨writer, hwriter, hstamp, -⟩ := (hattr.logs oldOwner holdOwner log hlog).stamped hts
      have hlt := (hattr.inv.bounds_of_hasStamp hwriter hstamp).2
      omega
    · rw [hid, hid']
      exact h oldOwner holdOwner log hlog hts old hold (hact hactive) (hstart'.symm.trans hstart)

theorem Pending.mono {txn' : Transaction} (h : s.Pending txn tab rid w) (hid : txn'.txnId = txn.txnId)
    (hstart : txn'.startTs = txn.startTs) (hgrows : s.txnMgr.Grows s'.txnMgr) (hslot : s'.slot tab rid = s.slot tab rid)
    (hocc : s'.occupied tab rid = s.occupied tab rid) (hversion : s'.txnMgr.versionInfo rid = s.txnMgr.versionInfo rid)
    (hget : ∀ link log, link.prevTxn = txn.txnId → s.txnMgr.getUndoLogOptional link = some log →
      s'.txnMgr.getUndoLogOptional link = some log) : s'.Pending txn' tab rid w := by
  obtain ⟨hused, ⟨rec_, hrec, hts⟩, link, hlink, hbehind⟩ := h
  exact ⟨hocc.trans hused, ⟨rec_, hslot.trans hrec, hts.trans hstart.symm⟩, link, hversion.trans hlink,
    hbehind.mono hid hstart hgrows hget⟩

/-- Two active transactions do not hold the same slot. -/
theorem Pending.unique {other : Transaction} {w' : WriteRecord} (h : s.Pending txn tab rid w)
    (hother : s.Pending other tab rid w') : txn.startTs = other.startTs := by
  obtain ⟨rec_, hslot, hts⟩ := h.slot
  obtain ⟨rec', hslot', hts'⟩ := hother.slot
  obtain rfl := Option.some.inj (hslot.symm.trans hslot')
  exact hts.symm.trans hts'

/-- A step after which the transactions have taken the same images from the slot, or none. -/
theorem Tracked.frame (h : s.Tracked tab rid) (hattr : s'.Attributed) (howned : s'.LogsOwned)
    (hgrows : s.txnMgr.Grows s'.txnMgr)
    (hmem : ∀ new ∈ s'.txnMgr.txnMap, new.writeSet = [] ∨ ∃ old ∈ s.txnMgr.txnMap, new.txnId = old.txnId ∧
      new.startTs = old.startTs ∧ (new.isActive = true → old.isActive = true) ∧
      (new.state = .aborted → old.state = .aborted) ∧ (∀ w ∈ new.writeSet, w.wtype ≠ .insertTuple) ∧
      new.image tab rid = old.image tab rid)
    (hkeeps : ∀ old ∈ s.txnMgr.txnMap, old.isActive = true → ∀ new ∈ s'.txnMgr.txnMap, new.txnId = old.txnId →
      new.isActive = true → ∀ w, s.Pending old tab rid w → s'.slot tab rid = s.slot tab rid ∧
        s'.occupied tab rid = s.occupied tab rid ∧ s'.txnMgr.versionInfo rid = s.txnMgr.versionInfo rid ∧
        ∀ link log, link.prevTxn = old.txnId → s.txnMgr.getUndoLogOptional link = some log →
          s'.txnMgr.getUndoLogOptional link = some log) : s'.Tracked tab rid := by
  refine ⟨hattr, howned, fun new hnew w hw => ?_, fun new hnew haborted => ?_, fun new hnew hactive w hw => ?_⟩
  · rcases hmem new hnew with hnil | ⟨old, hold, -, -, -, -, hkinds, -⟩
    · rw [hnil] at hw
      cases hw
    · exact hkinds w hw
  · rcases hmem new hnew with hnil | ⟨old, hold, -, -, -, hstate, -, himage⟩
    · rw [Transaction.image, hnil]
      rfl
    · rw [himage]
      exact h.ended old hold (hstate haborted)
  · rcases hmem new hnew with hnil | ⟨old, hold, hid, hstart, hact, -, -, himage⟩
    · rw [Transaction.image, hnil] at hw
      cases hw
    · rw [himage] at hw
      have hpending := h.pending old hold (hact hactive) w hw
      obtain ⟨hslot, hocc, hversion, hget⟩ := hkeeps old hold (hact hactive) new hnew hid hactive w hpending
      exact hpending.mono hid hstart hgrows hslot hocc hversion hget

/-! ### Statements -/

section stmtStep
variable {tabs : String → Option TabMeta} {target : Rid → Prop} {inserting : Prop} {s₀ : Store} {old : RecordView}
  {tabMeta : TabMeta} {wtype : WType}

theorem Attributed.startTs_pos (h : s.Attributed) (htxn : txn ∈ s.txnMgr.txnMap) (hw : w ∈ txn.writeSet) :
    1 ≤ txn.startTs := by
  have hnonneg := h.starts txn htxn
  have hne : txn.startTs ≠ 0 := fun hzero => List.ne_nil_of_mem hw (h.silent txn htxn hzero).1
  omega

/-- What a writer overwrites is not the version of another active transaction. -/
theorem Attributed.eq_of_active (h : s.Attributed) (hmay : MayOverwrite s txn tab fh rid old)
    (hcur : cur ∈ s.txnMgr.txnMap) (hactive : cur.isActive = true) (hts : (fh.record rid).tupleMeta.ts ≠ 0)
    (hstart : cur.startTs = (fh.record rid).tupleMeta.ts) : cur.txnId = txn.txnId := by
  by_contra hne
  obtain ⟨known, hknown, hid, hknown_start, -⟩ := hmay.runs.mem
  have hnonneg := h.starts cur hcur
  have hpos : 1 ≤ cur.startTs := by omega
  have hother : cur.startTs ≠ txn.startTs := by
    intro heq
    rw [h.inv.start_inj cur hcur known hknown (heq.trans hknown_start.symm)] at hne
    exact hne hid
  have hconflict := conflict_of_active h.inv.toIds (RmFileHandle.getRecordMvcc_page hmay.visible).2 hcur hactive hne hother
    hpos hstart.symm
  rw [hmay.noConflict] at hconflict
  cases hconflict

theorem LogsOwned.logged (h : s.LogsOwned)
    (hlogged : s.txnMgr.Logged s'.txnMgr cur.txnId log ws)
    (hown : log.ts ≠ 0 → ∀ txn ∈ s.txnMgr.txnMap, txn.isActive = true → txn.startTs = log.ts → txn.txnId = cur.txnId) :
    s'.LogsOwned := by
  intro owner howner log' hlog' hts txn htxn hactive hstart
  obtain ⟨old, hold, hid, hstart', hstate, -⟩ := hlogged.mem_fields htxn
  have hactive' : old.isActive = true := TransactionManager.isActive_congr hstate ▸ hactive
  obtain ⟨oldOwner, holdOwner, ⟨-, rfl⟩ | ⟨howner_id, rfl⟩⟩ := hlogged.mem howner
  · rw [hid]
    exact h owner holdOwner log' hlog' hts old hold hactive' (hstart'.symm.trans hstart)
  · rw [hid]
    rcases List.mem_append.mp hlog' with hlog' | hlog'
    · exact h oldOwner holdOwner log' hlog' hts old hold hactive' (hstart'.symm.trans hstart)
    · obtain rfl := List.mem_singleton.mp hlog'
      exact (hown hts old hold hactive' (hstart'.symm.trans hstart)).trans howner_id.symm

/-- A step that appends a log and writes nothing to a slot that is held. -/
theorem Tracked.logged (h : s.Tracked tab rid) (hattr : s'.Attributed) (hcur : cur ∈ s.txnMgr.txnMap)
    (hlogged : s.txnMgr.Logged s'.txnMgr cur.txnId log ws)
    (hown : log.ts ≠ 0 → ∀ txn ∈ s.txnMgr.txnMap, txn.isActive = true → txn.startTs = log.ts → txn.txnId = cur.txnId)
    (hkinds : ∀ w ∈ ws, w.wtype ≠ .insertTuple ∧ w.isAt tab rid = false)
    (hslot : s.occupied tab rid = true → s'.slot tab rid = s.slot tab rid ∧
      s'.occupied tab rid = s.occupied tab rid ∧ s'.txnMgr.versionInfo rid = s.txnMgr.versionInfo rid) :
    s'.Tracked tab rid := by
  have hids := h.inv.toIds
  refine h.frame hattr (h.owned.logged hlogged hown) hlogged.inert.grows (fun new hnew => .inr ?_)
    fun old hold _ new _ hid _ w hpending => ?_
  · obtain ⟨old, hold, hid, hstart, hstate, hws⟩ := hlogged.mem_fields hnew
    refine ⟨old, hold, hid, hstart, fun hactive => ?_, fun haborted => hstate.symm.trans haborted, fun w hw => ?_, ?_⟩
    · exact TransactionManager.isActive_congr hstate ▸ hactive
    · rw [hws] at hw
      rcases List.mem_append.mp hw with hw | hw
      · exact h.kinds old hold w hw
      · split at hw
        · exact (hkinds w hw).1
        · cases hw
    · have hrest : (if old.txnId = cur.txnId then ws else []).find? (·.isAt tab rid) = none := by
        split
        · exact List.find?_eq_none.mpr fun w hw => by simp [(hkinds w hw).2]
        · rfl
      rw [Transaction.image, Transaction.image, hws, List.find?_append, hrest, Option.or_none]
  · obtain ⟨hsame, hocc, hversion⟩ := hslot hpending.occupied
    exact ⟨hsame, hocc, hversion, fun link log' _ hlog' => hlogged.get_old hids hcur hlog'⟩

/-- The first write of a transaction to the slot takes the image; the later ones go on top. -/
theorem Tracked.overwritten (h : s.Tracked tab rid) (hattr : s'.Attributed) (hcur : cur ∈ s.txnMgr.txnMap)
    (hactive : cur.isActive = true) (hid : cur.txnId = txn.txnId) (hstart : cur.startTs = txn.startTs)
    (hmay : MayOverwrite s txn tab fh rid old) (hocc : s.occupied tab rid = true)
    (hwrite : Overwrite tabMeta s txn tab (fh.record rid) rid old wtype log rec_)
    (hlogged : s.txnMgr.Logged s'.txnMgr cur.txnId log [⟨wtype, tab, rid, fh.record rid⟩])
    (hput : s.Put s' tab rid rec_ (s.occupied tab rid))
    (hversion : s'.txnMgr.versionInfo rid = some (s.txnMgr.nextUndoLink cur.txnId)) : s'.Tracked tab rid := by
  have hids := h.inv.toIds
  have hlog := Succeeds.of_overwrite hmay hwrite
  have hslot : s.slot tab rid = some (fh.record rid) := slot_eq hmay.file
  have hkind : wtype ≠ .insertTuple := by
    cases hwrite with
    | update data => simp
    | delete => simp
  have hstamp : rec_.tupleMeta.ts = txn.startTs := by
    cases hwrite with
    | update data => rfl
    | delete => rfl
  have howned : s'.LogsOwned := h.owned.logged hlogged fun hts other hother hact heq => by
    rw [hlog.ts] at hts heq
    exact (h.eq_of_active hmay hother hact hts heq).trans hid.symm
  have hkeeps : s.txnMgr.Preserves log (fh.record rid) := by
    rcases h.found hmay with ⟨hdel, hrow⟩ | haborted
    · refine .inr ⟨hdel, ?_⟩
      have hcols : ∀ f : ColMeta → Value, tabMeta.cols.map f ≠ [] := fun f hnil =>
        tabMeta.cols_ne_nil (List.map_eq_nil_iff.mp hnil)
      cases hwrite with
      | update data => exact ⟨hdel, hcols _, hrow⟩
      | delete => exact ⟨rfl, hcols _, hrow⟩
    · exact .inl haborted
  have hgrows := hlogged.inert.grows
  have hnext := hlogged.get_next hids hcur
  refine ⟨hattr, howned, fun new hnew w hw => ?_, fun new hnew haborted => ?_, fun new hnew hact w hw => ?_⟩
  · obtain ⟨old, hold, -, -, -, hws⟩ := hlogged.mem_fields hnew
    rw [hws] at hw
    rcases List.mem_append.mp hw with hw | hw
    · exact h.kinds old hold w hw
    · split at hw
      · rw [List.mem_singleton.mp hw]
        exact hkind
      · cases hw
  · obtain ⟨old, hold, ⟨-, rfl⟩ | ⟨hown, rfl⟩⟩ := hlogged.mem hnew
    · exact h.ended new hold haborted
    · obtain rfl := hids.id_inj old hold cur hcur hown
      have hstate : old.state = .aborted := haborted
      simp [Transaction.isActive, hstate] at hactive
  · obtain ⟨old, hold, ⟨hother, rfl⟩ | ⟨hown, rfl⟩⟩ := hlogged.mem hnew
    · have hpending := h.pending new hold hact w hw
      obtain ⟨found, hfound, hts⟩ := hpending.slot
      obtain rfl := Option.some.inj (hslot.symm.trans hfound)
      have hpos := h.startTs_pos hold (List.mem_of_find?_eq_some hw)
      exact absurd ((h.eq_of_active hmay hold hact (by omega) hts.symm).trans hid.symm) hother
    · obtain rfl := hids.id_inj old hold cur hcur hown
      refine ⟨?_, ⟨rec_, hput.slot_self, hstamp.trans hstart.symm⟩, _, hversion, ?_⟩
      · rw [hput.occupied, if_pos ⟨rfl, rfl⟩, hocc]
      · have howner : (s.txnMgr.nextUndoLink old.txnId).prevTxn = old.txnId := rfl
        rw [Transaction.image, List.find?_append] at hw
        cases himage : old.image tab rid with
        | none =>
          rw [Transaction.image] at himage
          rw [himage] at hw
          obtain rfl : (⟨wtype, tab, rid, fh.record rid⟩ : WriteRecord) = w := by
            simpa [List.find?_cons, WriteRecord.isAt] using hw
          refine .here howner hnext hlog.ts (hkeeps.imp_left fun haborted => ⟨haborted.1, ?_⟩)
          obtain ⟨-, other, hmem, hother, hstate⟩ := haborted
          obtain ⟨new, hnew, -, hnew_start, hfin⟩ := hgrows.keeps other hmem
          have hstate' := (hfin (by simp [Transaction.isActive, hstate])).1
          exact ⟨new, hnew, hnew_start.trans hother, hstate'.trans hstate⟩
        | some first =>
          have hpending := h.pending old hcur hactive first himage
          rw [Transaction.image] at himage
          rw [himage] at hw
          obtain rfl : first = w := Option.some.inj hw
          obtain ⟨found, hfound, hts⟩ := hpending.slot
          obtain rfl := Option.some.inj (hslot.symm.trans hfound)
          obtain ⟨link, hlink, hbehind⟩ := hpending.behind
          have hpos := h.startTs_pos hcur (List.mem_of_find?_eq_some himage)
          have hprev := Option.some.inj (hlink.symm.trans (h.prev_overwritten hmay hwrite (by omega)))
          refine .there howner hnext (hlog.ts.trans hts) ?_
          rw [← hprev]
          exact hbehind.mono rfl rfl hgrows fun link log' _ hlog' => hlogged.get_old hids hcur hlog'

/-- A step of an UPDATE or a DELETE. -/
theorem Tracked.stmtStep (h : s.Tracked tab rid) (hstep : StmtStep tabs txn t target inserting s₀ s s')
    (hactive : txn.isActive = true) (hpos : 1 ≤ txn.startTs) (hno : ¬inserting)
    (halone : target rid → t = tab ∧ s.occupied tab rid = true) : s'.Tracked tab rid := by
  have hattr := h.toAttributed.stmtStep hstep hpos
  obtain ⟨cur, hcur, hid, hstart, hstate⟩ := hstep.runs.1.mem
  have hcur_active : cur.isActive = true := TransactionManager.isActive_congr hstate ▸ hactive
  cases hstep.outcome with
  | inserted inserting => exact absurd inserting hno
  | refused inserting => exact absurd inserting hno
  | notInserted runs logged slots history version =>
    rw [← hid] at logged
    refine h.logged hattr hcur logged (fun hne => absurd rfl hne) (fun w hw => by cases hw) fun hocc => ?_
    refine ⟨slots.slot tab rid, slots.occupied tab rid, ?_⟩
    rw [version, Function.update_of_ne (ne_of_occupied hocc)]
  | logged may htab htarget logged slots history version =>
    rw [← hid] at logged
    refine h.logged hattr hcur logged (fun hne other hother hact heq => ?_) (fun w hw => by cases hw) fun _ =>
      ⟨slots.slot tab rid, slots.occupied tab rid, by rw [version]⟩
    exact (h.eq_of_active may hother hact hne heq).trans hid.symm
  | overwritten may htab htarget write logged put history version =>
    rename_i fh tabMeta r old wtype log rec_
    rw [← hid] at logged
    by_cases hr : r = rid
    · subst hr
      obtain ⟨rfl, hocc⟩ := halone htarget
      exact h.overwritten hattr hcur hcur_active hid hstart may hocc write logged put
        (by rw [version, Function.update_self, hid])
    · have hlog := Succeeds.of_overwrite may write
      have hat : ¬(tab = t ∧ rid = r) := fun hat => hr hat.2.symm
      refine h.logged hattr hcur logged (fun hne other hother hact heq => ?_) (fun w hw => ?_) fun _ => ?_
      · rw [hlog.ts] at hne heq
        exact (h.eq_of_active may hother hact hne heq).trans hid.symm
      · rw [List.mem_singleton.mp hw]
        refine ⟨?_, by simp [WriteRecord.isAt, hr]⟩
        cases write with
        | update data => simp
        | delete => simp
      · refine ⟨put.slot_ne hat, ?_, ?_⟩
        · rw [put.occupied, if_neg hat]
        · rw [version, Function.update_of_ne (Ne.symm hr)]

theorem Tracked.insert (h : s.Tracked tab rid) (hattr : s'.Attributed) (houtcome : InsertOutcome txn t r s s')
    (hruns : s.Runs txn) (halone : r = rid → t = tab) : s'.Tracked tab rid := by
  obtain ⟨cur, hcur, hid, -⟩ := hruns.mem
  -- The slot that is taken was free.
  have hput : ∀ {rec_ used}, s.Put s' t r rec_ used → s.occupied t r = false →
      s'.txnMgr.versionInfo = Function.update s.txnMgr.versionInfo r (some (s.txnMgr.nextUndoLink txn.txnId)) →
      s.occupied tab rid = true → s'.slot tab rid = s.slot tab rid ∧ s'.occupied tab rid = s.occupied tab rid ∧
        s'.txnMgr.versionInfo rid = s.txnMgr.versionInfo rid := by
    intro rec_ used hput hfree hversion hocc
    have hr : r ≠ rid := by
      rintro rfl
      rw [← halone rfl, hfree] at hocc
      cases hocc
    have hat : ¬(tab = t ∧ rid = r) := fun hat => hr hat.2.symm
    rw [hput.slot_ne hat, hput.occupied, if_neg hat, hversion, Function.update_of_ne (Ne.symm hr)]
    exact ⟨rfl, rfl, rfl⟩
  cases houtcome with
  | notInserted logged slots history version =>
    rw [← hid] at logged
    refine h.logged hattr hcur logged (fun hne => absurd rfl hne) (fun w hw => by cases hw) fun hocc => ?_
    refine ⟨slots.slot tab rid, slots.occupied tab rid, ?_⟩
    rw [version, Function.update_of_ne (ne_of_occupied hocc)]
  | inserted slotNo free logged put history version =>
    rw [← hid] at logged
    exact h.logged hattr hcur logged (fun hne => absurd rfl hne) (fun w hw => by cases hw) (hput put free version)
  | refused file slotNo free logged put history version =>
    rw [← hid] at logged
    exact h.logged hattr hcur logged (fun hne => absurd rfl hne) (fun w hw => by cases hw) (hput put free version)

/-! ### What a reader is shown across a statement -/

theorem Attributed.sameLogs_logged (h : s.Attributed) (hcur : cur ∈ s.txnMgr.txnMap)
    (hlogged : s.txnMgr.Logged s'.txnMgr cur.txnId log ws) (link : UndoLink) (old : UndoLog)
    (hold : s.txnMgr.getUndoLogOptional link = some old) :
    ∃ new, s'.txnMgr.getUndoLogOptional link = some new ∧ SameLog s.txnMgr s'.txnMgr readTs old new :=
  ⟨old, hlogged.get_old h.inv.toIds hcur hold, rfl, rfl, rfl, rfl, hlogged.inert.sees_iff⟩

/-- A log is appended, and the slot stays. -/
theorem Attributed.shownAt_logged (h : s.Attributed) (h' : s'.Attributed) (hcur : cur ∈ s.txnMgr.txnMap)
    (hlogged : s.txnMgr.Logged s'.txnMgr cur.txnId log ws) (hocc : s'.occupied tab rid = s.occupied tab rid)
    (hslot : s.occupied tab rid = true → s'.slot tab rid = s.slot tab rid ∧
      s'.txnMgr.versionInfo rid = s.txnMgr.versionInfo rid) :
    s'.shownAt readTs tab rid = s.shownAt readTs tab rid := by
  cases hused : s.occupied tab rid with
  | false => rw [shownAt_of_free hused, shownAt_of_free (hocc.trans hused)]
  | true =>
    obtain ⟨hsame, hversion⟩ := hslot hused
    exact h.shownAt_congr h' (fun _ _ => hlogged.inert.sees_iff) (h.sameLogs_logged hcur hlogged) hsame hocc hversion

/-- The new record is hidden, and its log shows what was there. -/
theorem Attributed.shownAt_overwritten (h : s.Attributed) (h' : s'.Attributed) (hcur : cur ∈ s.txnMgr.txnMap)
    (hreader : reader ∈ s.txnMgr.txnMap) (hactive : reader.isActive = true)
    (hother : reader.txnId ≠ txn.txnId) (hunseen : ¬s.txnMgr.Sees reader.startTs txn.startTs)
    (hmay : MayOverwrite s txn tab fh rid old) (hocc : s.occupied tab rid = true)
    (hwrite : Overwrite tabMeta s txn tab (fh.record rid) rid old wtype log rec_)
    (hlogged : s.txnMgr.Logged s'.txnMgr cur.txnId log ws) (hput : s.Put s' tab rid rec_ (s.occupied tab rid))
    (hversion : s'.txnMgr.versionInfo rid = some (s.txnMgr.nextUndoLink cur.txnId)) :
    s'.shownAt reader.startTs tab rid = s.shownAt reader.startTs tab rid := by
  have hids := h.inv.toIds
  have hlog := Succeeds.of_overwrite hmay hwrite
  have hslot : s.slot tab rid = some (fh.record rid) := slot_eq hmay.file
  have hstamp : rec_.tupleMeta.ts = txn.startTs := by
    cases hwrite with
    | update data => rfl
    | delete => rfl
  have hused : s'.occupied tab rid = true := by
    rw [hput.occupied, if_pos ⟨rfl, rfl⟩, hocc]
  have hsees : ∀ ts, s'.txnMgr.Sees reader.startTs ts ↔ s.txnMgr.Sees reader.startTs ts := fun _ => hlogged.inert.sees_iff
  rw [shownAt_eq hput.slot_self, shownAt_eq hslot, hused, hocc, if_pos rfl, if_pos rfl, hversion, Option.bind_some,
    if_neg (by rw [hstamp, hsees]; exact hunseen), h'.chained.shownFrom_eq (hlogged.get_next hids hcur), hlog.ts]
  simp only [hsees]
  by_cases hseen : s.txnMgr.Sees reader.startTs (fh.record rid).tupleMeta.ts
  · rw [if_pos hseen]
    rcases h.found hmay with ⟨hdel, hrow⟩ | ⟨hzero, owner, howner, hstart, hstate⟩
    · have hcols : ∀ f : ColMeta → Value, tabMeta.cols.map f ≠ [] := fun f hnil =>
        tabMeta.cols_ne_nil (List.map_eq_nil_iff.mp hnil)
      have hkept : log.isDeleted = false ∧ log.tuple ≠ [] := by
        cases hwrite with
        | update data => exact ⟨hdel, hcols _⟩
        | delete => exact ⟨rfl, hcols _⟩
      rw [if_pos ⟨hseen, .inr hkept.2⟩, hkept.1, hdel, hlog.source, hrow]
    · exfalso
      rcases (h.inv.sees_iff howner (.inl hstart) hzero).mp hseen with hown | ⟨-, hcommitted⟩
      · exact hother (h.eq_of_active hmay hreader hactive hzero hown.symm)
      · rw [hstate] at hcommitted
        cases hcommitted
  · have hzero : (fh.record rid).tupleMeta.ts ≠ 0 := fun hzero => hseen (hzero ▸ sees_zero)
    have hprev := h.prev_overwritten hmay hwrite hzero
    rw [if_neg hseen, if_neg fun hshown => hseen hshown.1, hprev, Option.bind_some,
      (h.heads rid _ hprev).shownFrom_congr h.chained h'.chained (h.sameLogs_logged hcur hlogged)]

theorem Attributed.shownAt_stmtStep (h : s.Attributed) (hstep : StmtStep tabs txn t target inserting s₀ s s')
    (hpos : 1 ≤ txn.startTs) (hno : ¬inserting) (halone : target rid → t = tab ∧ s.occupied tab rid = true)
    (hreader : reader ∈ s.txnMgr.txnMap) (hactive : reader.isActive = true)
    (hforeign : target rid → reader.txnId ≠ txn.txnId ∧ ¬s.txnMgr.Sees reader.startTs txn.startTs) :
    s'.shownAt reader.startTs tab rid = s.shownAt reader.startTs tab rid := by
  have h' := h.stmtStep hstep hpos
  obtain ⟨cur, hcur, hid, hstart, hstate⟩ := hstep.runs.1.mem
  cases hstep.outcome with
  | inserted inserting => exact absurd inserting hno
  | refused inserting => exact absurd inserting hno
  | notInserted runs logged slots history version =>
    rw [← hid] at logged
    refine h.shownAt_logged h' hcur logged (slots.occupied tab rid) fun hocc => ⟨slots.slot tab rid, ?_⟩
    rw [version, Function.update_of_ne (ne_of_occupied hocc)]
  | logged may htab htarget logged slots history version =>
    rw [← hid] at logged
    exact h.shownAt_logged h' hcur logged (slots.occupied tab rid) fun _ => ⟨slots.slot tab rid, by rw [version]⟩
  | overwritten may htab htarget write logged put history version =>
    rename_i fh tabMeta r old wtype log rec_
    rw [← hid] at logged
    by_cases hr : r = rid
    · subst hr
      obtain ⟨rfl, hocc⟩ := halone htarget
      obtain ⟨hother, hunseen⟩ := hforeign htarget
      exact h.shownAt_overwritten h' hcur hreader hactive hother hunseen may hocc write logged put
        (by rw [version, Function.update_self, hid])
    · have hat : ¬(tab = t ∧ rid = r) := fun hat => hr hat.2.symm
      refine h.shownAt_logged h' hcur logged (by rw [put.occupied, if_neg hat]) fun _ => ⟨put.slot_ne hat, ?_⟩
      rw [version, Function.update_of_ne (Ne.symm hr)]

/-- A new row is hidden, and there was none in the slot. -/
theorem Attributed.shownAt_insert (h : s.Attributed) (h' : s'.Attributed) (houtcome : InsertOutcome txn t r s s')
    (hruns : s.Runs txn) (hunseen : r = rid → t = tab ∧ ¬s.txnMgr.Sees readTs txn.startTs) :
    s'.shownAt readTs tab rid = s.shownAt readTs tab rid := by
  obtain ⟨cur, hcur, hid, -⟩ := hruns.mem
  have helse : ∀ {rec_ used log}, s.Put s' t r rec_ used → s.txnMgr.Logged s'.txnMgr cur.txnId log [] →
      s'.txnMgr.versionInfo = Function.update s.txnMgr.versionInfo r (some (s.txnMgr.nextUndoLink txn.txnId)) →
      r ≠ rid → s'.shownAt readTs tab rid = s.shownAt readTs tab rid := by
    intro rec_ used log put logged version hr
    have hat : ¬(tab = t ∧ rid = r) := fun hat => hr hat.2.symm
    refine h.shownAt_logged h' hcur logged (by rw [put.occupied, if_neg hat]) fun _ => ⟨put.slot_ne hat, ?_⟩
    rw [version, Function.update_of_ne (Ne.symm hr)]
  cases houtcome with
  | notInserted logged slots history version =>
    rw [← hid] at logged
    refine h.shownAt_logged h' hcur logged (slots.occupied tab rid) fun hocc => ⟨slots.slot tab rid, ?_⟩
    rw [version, Function.update_of_ne (ne_of_occupied hocc)]
  | inserted slotNo free logged put history version =>
    rename_i n data
    rw [← hid] at logged
    by_cases hr : r = rid
    · subst hr
      obtain ⟨rfl, hhides⟩ := hunseen rfl
      have hhidden : ¬s'.txnMgr.Sees readTs (insertedRecord txn t data r).tupleMeta.ts :=
        fun hseen => hhides (logged.inert.sees_iff.mp hseen)
      have hused : s'.occupied t r = true := by rw [put.occupied, if_pos ⟨rfl, rfl⟩]
      have hlog := logged.get_next h.inv.toIds hcur
      rw [shownAt_of_free free, shownAt_eq put.slot_self, hused, if_pos rfl, if_neg hhidden, version,
        Function.update_self, Option.bind_some, ← hid, h'.chained.shownFrom_eq hlog, if_pos ⟨.inl rfl, .inl rfl⟩]
      rfl
    · exact helse put logged version hr
  | refused file slotNo free logged put history version =>
    rw [← hid] at logged
    by_cases hr : r = rid
    · subst hr
      obtain ⟨rfl, -⟩ := hunseen rfl
      have hgone : s'.occupied t r = false := by rw [put.occupied, if_pos ⟨rfl, rfl⟩]
      rw [shownAt_of_free free, shownAt_of_free hgone]
    · exact helse put logged version hr

end stmtStep

/-! ### Commits -/

theorem Tracked.commit (h : s.Tracked tab rid) (htxn : txn ∈ s.txnMgr.txnMap) (hactive : txn.isActive = true) :
    (s.commit txn).Tracked tab rid := by
  have hattr := h.toAttributed.commit htxn hactive
  have hids := h.inv.toIds
  have hmap : (s.commit txn).txnMgr = s.txnMgr.commitTxn txn := commit_txnMgr
  have hmem : ∀ {new}, new ∈ (s.commit txn).txnMgr.txnMap → new ∈ s.txnMgr.txnMap ∧ new.txnId ≠ txn.txnId ∨
      new = txn.committedAt s.txnMgr.nextTimestamp := by
    intro new hnew
    rw [hmap] at hnew
    obtain ⟨old, hold, ⟨hne, rfl⟩ | ⟨hid, rfl⟩⟩ := mem_commitTxn hnew
    · exact .inl ⟨hold, hne⟩
    · exact .inr (by rw [hids.id_inj old hold txn htxn hid])
  refine h.frame hattr ?_ (hmap ▸ h.inv.grows_commit htxn hactive) (fun new hnew => .inr ?_)
    fun old hold hact new hnew hid hnew_active w hpending => ?_
  · intro owner howner log hlog hts other hother hact hstart
    rcases hmem hother with ⟨hold, hne⟩ | rfl
    · rcases hmem howner with ⟨holdOwner, -⟩ | rfl
      · exact h.owned owner holdOwner log hlog hts other hold hact hstart
      · obtain ⟨log, hold_log, rfl⟩ := List.mem_map.mp hlog
        have hlt := h.inv.start_lt other hold
        split at hstart
        · rw [hstart] at hlt
          exact absurd hlt (lt_irrefl _)
        · rename_i hkept
          rw [if_neg hkept] at hts
          exact h.owned txn htxn log hold_log hts other hold hact hstart
    · cases hact
  · rcases hmem hnew with ⟨hold, -⟩ | rfl
    · exact ⟨new, hold, rfl, rfl, id, id, h.kinds new hold, rfl⟩
    · refine ⟨txn, htxn, rfl, rfl, fun _ => hactive, fun haborted => ?_, h.kinds txn htxn, rfl⟩
      cases haborted
  · have hne : old.txnId ≠ txn.txnId := by
      rcases hmem hnew with ⟨-, hne⟩ | rfl
      · exact hid ▸ hne
      · cases hnew_active
    refine ⟨?_, commit_restamped.occupied tab rid, by rw [hmap]; rfl, fun link log hlink hlog => ?_⟩
    · rcases commit_slot s txn tab rid with ⟨hsame, -⟩ | ⟨rec_, hrec, ⟨-, -, hts, -⟩, -⟩
      · exact hsame
      · obtain ⟨found, hfound, hstart⟩ := hpending.slot
        obtain rfl := Option.some.inj (hrec.symm.trans hfound)
        exact absurd (congrArg Transaction.txnId (h.inv.start_inj old hold txn htxn (hstart.symm.trans hts))) hne
    · obtain ⟨owner, howner, howner_id, hget⟩ := hids.getUndoLogOptional_iff.mp hlog
      rw [hmap]
      refine hids.commitTxn.getUndoLogOptional_iff.mpr ⟨owner, commitTxn_mem_of_ne howner ?_, howner_id, hget⟩
      rw [howner_id, hlink]
      exact hne

/-- A commit changes what is seen of the timestamps of its own transaction only. -/
theorem Attributed.sees_commit {ts : ℤ} (h : s.Attributed) (htxn : txn ∈ s.txnMgr.txnMap) (hactive : txn.isActive = true)
    (hstamped : ts ≠ 0 → ∃ owner ∈ s.txnMgr.txnMap, owner.HasStamp ts) (hne : ts ≠ txn.startTs) :
    (s.txnMgr.commitTxn txn).Sees readTs ts ↔ s.txnMgr.Sees readTs ts := by
  by_cases hzero : ts = 0
  · rw [hzero]
    exact ⟨fun _ => sees_zero, fun _ => sees_zero⟩
  obtain ⟨owner, howner, hstamp⟩ := hstamped hzero
  have hother : owner.txnId ≠ txn.txnId := by
    intro hid
    obtain rfl := h.inv.id_inj owner howner txn htxn hid
    rcases hstamp with hts | ⟨hstate, -⟩
    · exact hne hts.symm
    · simp [Transaction.isActive, hstate] at hactive
  rw [h.inv.sees_iff howner hstamp hzero,
    (h.inv.commitTxn htxn rfl hactive).sees_iff (commitTxn_mem_of_ne howner hother) hstamp hzero]

/-- What was written before the reader started and is stamped later stays hidden. -/
theorem Attributed.not_sees_commit (h : s.Attributed) (htxn : txn ∈ s.txnMgr.txnMap) (hactive : txn.isActive = true)
    (hreader : reader ∈ s.txnMgr.txnMap) : ¬(s.txnMgr.commitTxn txn).Sees reader.startTs s.txnMgr.nextTimestamp := by
  have hlt := h.inv.start_lt reader hreader
  have hnonneg := h.starts reader hreader
  have hstamp : (txn.committedAt s.txnMgr.nextTimestamp).HasStamp s.txnMgr.nextTimestamp := .inr ⟨rfl, rfl⟩
  rw [(h.inv.commitTxn htxn rfl hactive).sees_iff (commitTxn_mem_self htxn rfl) hstamp (by omega)]
  omega

/-- Across a commit a reader sees the same logs: those of the transaction are hidden before and after. -/
theorem Attributed.sameLogs_commit (h : s.Attributed) (howned : s.LogsOwned) (htxn : txn ∈ s.txnMgr.txnMap)
    (hactive : txn.isActive = true) (hreader : reader ∈ s.txnMgr.txnMap) (hother : reader.startTs ≠ txn.startTs)
    (link : UndoLink) (log : UndoLog) (hlog : s.txnMgr.getUndoLogOptional link = some log) :
    ∃ new, (s.txnMgr.commitTxn txn).getUndoLogOptional link = some new ∧
      SameLog s.txnMgr (s.txnMgr.commitTxn txn) reader.startTs log new := by
  have hids := h.inv.toIds
  obtain ⟨owner, howner, hid, hget⟩ := hids.getUndoLogOptional_iff.mp hlog
  have hmem := List.mem_of_getElem? hget
  by_cases hts : log.ts = txn.startTs
  · by_cases hzero : txn.startTs = 0
    · have hne : owner.txnId ≠ txn.txnId := by
        intro hown
        rw [hids.id_inj owner howner txn htxn hown, (h.silent txn htxn hzero).2] at hmem
        cases hmem
      refine ⟨log, hids.commitTxn.getUndoLogOptional_iff.mpr ⟨owner, commitTxn_mem_of_ne howner hne, hid, hget⟩,
        rfl, rfl, rfl, rfl, ?_⟩
      rw [hts, hzero]
      exact ⟨fun _ => sees_zero, fun _ => sees_zero⟩
    · have hown := howned owner howner log hmem (hts ▸ hzero) txn htxn hactive hts.symm
      obtain rfl := hids.id_inj txn htxn owner howner hown
      refine ⟨{ log with ts := s.txnMgr.nextTimestamp },
        hids.commitTxn.getUndoLogOptional_iff.mpr ⟨_, commitTxn_mem_self howner rfl, hid, ?_⟩, rfl, rfl, rfl, rfl, ?_⟩
      · simp only [Transaction.committedAt, List.getElem?_map, hget, Option.map_some, if_pos hts]
      · refine iff_of_false (h.not_sees_commit howner hactive hreader) ?_
        rw [hts]
        exact h.inv.not_sees_active howner hactive hzero hother.symm
  · have hsees : (s.txnMgr.commitTxn txn).Sees reader.startTs log.ts ↔ s.txnMgr.Sees reader.startTs log.ts :=
      h.sees_commit htxn hactive (h.stamped_log hlog) hts
    by_cases hown : owner.txnId = txn.txnId
    · obtain rfl := hids.id_inj owner howner txn htxn hown
      refine ⟨log, hids.commitTxn.getUndoLogOptional_iff.mpr ⟨_, commitTxn_mem_self howner rfl, hid, ?_⟩,
        rfl, rfl, rfl, rfl, hsees⟩
      simp only [Transaction.committedAt, List.getElem?_map, hget, Option.map_some, if_neg hts]
    · exact ⟨log, hids.commitTxn.getUndoLogOptional_iff.mpr ⟨owner, commitTxn_mem_of_ne howner hown, hid, hget⟩,
        rfl, rfl, rfl, rfl, hsees⟩

/-- The versions of a transaction that commits stay hidden from those who run, unless it leaves its start timestamp in a slot
and has started before them. -/
theorem Attributed.shownAt_commit (h : s.Attributed) (howned : s.LogsOwned) (htxn : txn ∈ s.txnMgr.txnMap)
    (hactive : txn.isActive = true) (hreader : reader ∈ s.txnMgr.txnMap) (hother : reader.startTs ≠ txn.startTs)
    (hstamps : txn.startTs < reader.startTs → s.occupied tab rid = true →
      ∀ rec_ ∈ s.slot tab rid, rec_.tupleMeta.ts = txn.startTs → txn.hasWritten tab rid) :
    (s.commit txn).shownAt reader.startTs tab rid = s.shownAt reader.startTs tab rid := by
  have h' := h.commit htxn hactive
  have hocc : (s.commit txn).occupied tab rid = s.occupied tab rid := commit_restamped.occupied tab rid
  have hmap : (s.commit txn).txnMgr = s.txnMgr.commitTxn txn := commit_txnMgr
  have hversion : (s.commit txn).txnMgr.versionInfo rid = s.txnMgr.versionInfo rid := by
    rw [hmap]
    rfl
  have hlogs := h.sameLogs_commit howned htxn hactive hreader hother
  rw [← hmap] at hlogs
  have hnext := h.inv.start_lt txn htxn
  cases hused : s.occupied tab rid with
  | false => rw [shownAt_of_free hused, shownAt_of_free (hocc.trans hused)]
  | true =>
    rcases commit_slot s txn tab rid with ⟨hsame, hnot⟩ | ⟨rec_, hrec, ⟨⟨w, hw, -⟩, -, hts, -⟩, hnew⟩
    · refine h.shownAt_congr h' (fun rec_ hrec => ?_) hlogs hsame hocc hversion
      rw [hmap]
      by_cases hts : rec_.tupleMeta.ts = txn.startTs
      · by_cases hzero : txn.startTs = 0
        · rw [hts, hzero]
          exact ⟨fun _ => sees_zero, fun _ => sees_zero⟩
        · have hlate : ¬txn.startTs < reader.startTs := fun hlt =>
            hnot rec_ hrec ⟨hstamps hlt hused rec_ hrec hts, hused, hts, hnext⟩
          rw [hts]
          refine iff_of_false ?_ (h.inv.not_sees_active htxn hactive hzero hother.symm)
          have hstamp : (txn.committedAt s.txnMgr.nextTimestamp).HasStamp txn.startTs := .inl rfl
          rw [(h.inv.commitTxn htxn rfl hactive).sees_iff (commitTxn_mem_self htxn rfl) hstamp hzero]
          omega
      · exact h.sees_commit htxn hactive (h.stamped_slot hrec) hts
    · have hzero : txn.startTs ≠ 0 := by
        have hpos := h.startTs_pos htxn hw
        omega
      have hbefore : ¬s.txnMgr.Sees reader.startTs rec_.tupleMeta.ts := by
        rw [hts]
        exact h.inv.not_sees_active htxn hactive hzero hother.symm
      have hafter : ¬(s.commit txn).txnMgr.Sees reader.startTs (stamped s.txnMgr.nextTimestamp rec_).tupleMeta.ts := by
        rw [hmap]
        exact h.not_sees_commit htxn hactive hreader
      rw [shownAt_eq hrec, shownAt_eq hnew, hocc, hused, if_pos rfl, if_pos rfl, if_neg hbefore, if_neg hafter, hversion]
      cases hlink : s.txnMgr.versionInfo rid with
      | none => rfl
      | some link =>
        rw [Option.bind_some, Option.bind_some, (h.heads rid link hlink).shownFrom_congr h.chained h'.chained hlogs]

/-! ### Aborts -/

/-- A rollback in a slot that is in use. -/
theorem undoWrite_wrote (hkind : w.wtype ≠ .insertTuple) (hocc : fh.isRecord w.rid = true) :
    fh.Wrote (undoWrite w fh) w.rid w.record true := by
  have hpage := (RmFileHandle.isRecord_iff.mp hocc).1
  unfold undoWrite
  cases hwtype : w.wtype with
  | insertTuple => exact absurd hwtype hkind
  | deleteTuple =>
    exact RmFileHandle.insertRecordAt_wrote (RmFileHandle.createNewPageHandle_hasPage.mpr (.inl hpage))
  | updateTuple => exact hocc ▸ RmFileHandle.updateRecord_wrote hpage

theorem undoOne_ne {fhs : Files} (ht : t ≠ w.tabName) : undoOne w fhs t = fhs t := by
  unfold undoOne
  cases fhs w.tabName with
  | none => rfl
  | some fh => exact Function.update_of_ne ht _ _

/-- What a rollback leaves in one slot. -/
theorem undoAll_at {fhs : Files} (hfh : fhs tab = some fh)
    (hws : ∀ w ∈ ws, w.isAt tab rid = true → w.wtype ≠ .insertTuple ∧ fh.isRecord rid = true) :
    ∃ fh', undoAll ws fhs tab = some fh' ∧ fh'.isRecord rid = fh.isRecord rid ∧
      fh'.record rid = ((ws.find? (·.isAt tab rid)).map (·.record)).getD (fh.record rid) := by
  induction ws with
  | nil => exact ⟨fh, hfh, rfl, rfl⟩
  | cons w ws ih =>
    obtain ⟨mid, hmid, hocc, hrecord⟩ := ih fun w hw => hws w (List.mem_cons_of_mem _ hw)
    change ∃ fh', undoOne w (undoAll ws fhs) tab = some fh' ∧ _
    by_cases ht : w.tabName = tab
    · have hone : undoOne w (undoAll ws fhs) tab = some (undoWrite w mid) := by
        simp only [undoOne, ht, hmid, Function.update_self]
      refine ⟨_, hone, ?_⟩
      by_cases hr : w.rid = rid
      · have hat : w.isAt tab rid = true := WriteRecord.isAt_iff.mpr ⟨ht, hr⟩
        obtain ⟨hkind, hused⟩ := hws w List.mem_cons_self hat
        have hwrote := undoWrite_wrote hkind (hr ▸ hocc.trans hused)
        rw [hwrote.isRecord, hwrote.record, ← hr, Function.update_self, Function.update_self, hr, hused]
        simp only [List.find?_cons, hat, Option.map_some, Option.getD_some, and_self]
      · have hat : w.isAt tab rid = false := by simp [WriteRecord.isAt, hr]
        rw [(undoWrite_ne (Ne.symm hr)).1, (undoWrite_ne (Ne.symm hr)).2]
        simp only [List.find?_cons, hat]
        exact ⟨hocc, hrecord⟩
    · have hat : w.isAt tab rid = false := by simp [WriteRecord.isAt, ht]
      rw [undoOne_ne (Ne.symm ht)]
      simp only [List.find?_cons, hat]
      exact ⟨mid, hmid, hocc, hrecord⟩

theorem undoAll_none {fhs : Files} (hfh : fhs tab = none) : undoAll ws fhs tab = none := by
  induction ws with
  | nil => exact hfh
  | cons w ws ih =>
    change undoOne w (undoAll ws fhs) tab = none
    by_cases ht : tab = w.tabName
    · unfold undoOne
      rw [← ht, ih]
      exact ih
    · rw [undoOne_ne ht, ih]

/-- What an abort leaves in a slot: the image that its transaction has taken there. -/
theorem Tracked.abort_at (h : s.Tracked tab rid) (htxn : txn ∈ s.txnMgr.txnMap) (hactive : txn.isActive = true)
    (habort : s.abort txn = some s') : s'.occupied tab rid = s.occupied tab rid ∧
      s'.slot tab rid = ((txn.image tab rid).map (·.record)).or (s.slot tab rid) := by
  have hget : (s.markAborted txn).txnMgr.getTransaction txn.txnId = some { txn with state := .aborted } :=
    (h.inv.markAborted htxn rfl rfl hactive).toIds.getTransaction (markAborted_mem_self htxn rfl)
  have hrolled := rollbackAll_fhs hget rfl habort
  have hfhs : s'.fhs = undoAll txn.writeSet s.fhs := hrolled
  have hused : ∀ {w}, txn.image tab rid = some w → s.occupied tab rid = true := fun hw =>
    (h.pending txn htxn hactive _ hw).occupied
  cases hfh : s.fhs tab with
  | none =>
    have hnone : s'.fhs tab = none := hfhs ▸ undoAll_none hfh
    cases himage : txn.image tab rid with
    | none =>
      simp only [Store.occupied, Store.slot, hnone, hfh, Option.map_none, Option.or_none]
      exact ⟨trivial, trivial⟩
    | some w =>
      have hocc := hused himage
      simp [Store.occupied, hfh] at hocc
  | some fh =>
    obtain ⟨fh', hfh', hocc, hrecord⟩ := undoAll_at hfh fun w (hw : w ∈ txn.writeSet) (hat : w.isAt tab rid = true) => by
      refine ⟨h.kinds txn htxn w hw, ?_⟩
      cases himage : txn.image tab rid with
      | none => simp [List.find?_eq_none.mp himage w hw] at hat
      | some first => exact (occupied_eq hfh).symm.trans (hused himage)
    rw [← hfhs] at hfh'
    rw [occupied_eq hfh', occupied_eq hfh, slot_eq hfh', slot_eq hfh, hocc, hrecord]
    refine ⟨rfl, ?_⟩
    unfold Transaction.image
    cases txn.writeSet.find? (·.isAt tab rid) <;> rfl

theorem Tracked.abort (h : s.Tracked tab rid) (htxn : txn ∈ s.txnMgr.txnMap) (hactive : txn.isActive = true)
    (habort : s.abort txn = some s') : s'.Tracked tab rid := by
  have hattr : s'.Attributed := (h.toAttributed.markAborted htxn hactive).rollbackAll habort
  have hids := h.inv.toIds
  have htm := rollbackAll_txnMgr habort
  have hquiet : s.txnMgr.Quiet s'.txnMgr := h.inv.quiet_abort htxn hactive htm
  obtain ⟨hocc, hslot⟩ := h.abort_at htxn hactive habort
  refine h.frame hattr (h.owned.quiet h.toAttributed hquiet) hquiet.grows (fun new hnew => ?_)
    fun old hold hact new hnew hid hnew_active w hpending => ?_
  · rcases h.inv.mem_abort htxn htm hnew with ⟨hold, -⟩ | rfl
    · exact .inr ⟨new, hold, rfl, rfl, id, id, h.kinds new hold, rfl⟩
    · exact .inl rfl
  · refine ⟨?_, hocc, by rw [hquiet.versionInfo], fun link log _ hlog =>
      hquiet.getUndoLogOptional hids hattr.inv.toIds hlog⟩
    rw [hslot]
    cases himage : txn.image tab rid with
    | none => rfl
    | some first =>
      have hstart := hpending.unique (h.pending txn htxn hactive first himage)
      rw [h.inv.start_inj old hold txn htxn hstart] at hid
      rcases h.inv.mem_abort htxn htm hnew with ⟨-, hne⟩ | rfl
      · exact absurd hid hne
      · cases hnew_active

/-- Those who run are shown the same version after an abort: the image is what the logs have shown. -/
theorem Tracked.shownAt_abort (h : s.Tracked tab rid) (htxn : txn ∈ s.txnMgr.txnMap) (hactive : txn.isActive = true)
    (habort : s.abort txn = some s') (hreader : reader ∈ s.txnMgr.txnMap) (hreads : reader.isActive = true)
    (hother : reader.startTs ≠ txn.startTs) : s'.shownAt reader.startTs tab rid = s.shownAt reader.startTs tab rid := by
  have hattr : s'.Attributed := (h.toAttributed.markAborted htxn hactive).rollbackAll habort
  have hquiet : s.txnMgr.Quiet s'.txnMgr := h.inv.quiet_abort htxn hactive (rollbackAll_txnMgr habort)
  obtain ⟨hocc, hslot⟩ := h.abort_at htxn hactive habort
  have hversion : s'.txnMgr.versionInfo rid = s.txnMgr.versionInfo rid := by rw [hquiet.versionInfo]
  have hlogs : ∀ link log, s.txnMgr.getUndoLogOptional link = some log → ∃ new,
      s'.txnMgr.getUndoLogOptional link = some new ∧ SameLog s.txnMgr s'.txnMgr reader.startTs log new :=
    h.toAttributed.sameLogs_quiet hattr hquiet
  cases himage : txn.image tab rid with
  | none =>
    rw [himage, Option.map_none, Option.none_or] at hslot
    exact h.toAttributed.shownAt_congr hattr
      (fun rec_ hrec => hquiet.sees_iff h.inv hattr.inv (h.toAttributed.stamped_slot hrec)) hlogs hslot hocc hversion
  | some w =>
    obtain ⟨hused, ⟨rec_, hrec, hts⟩, link, hlink, hbehind⟩ := h.pending txn htxn hactive w himage
    rw [himage] at hslot
    have hpos := h.startTs_pos htxn (List.mem_of_find?_eq_some himage)
    have hunseen : ¬s.txnMgr.Sees reader.startTs txn.startTs :=
      h.inv.not_sees_active htxn hactive (by omega) hother.symm
    have hv := h.images txn htxn w (List.mem_of_find?_eq_some himage)
    have hsees : s'.txnMgr.Sees reader.startTs w.record.tupleMeta.ts ↔
        s.txnMgr.Sees reader.startTs w.record.tupleMeta.ts := by
      refine hquiet.sees_iff h.inv hattr.inv fun hne => ?_
      obtain ⟨owner, howner, hstamp, -⟩ := hv.attributes.stamped hne
      exact ⟨owner, howner, hstamp⟩
    have hchain : s'.txnMgr.shownFrom reader.startTs link = s.txnMgr.shownFrom reader.startTs link :=
      (h.heads rid link hlink).shownFrom_congr h.chained hattr.chained hlogs
    rw [shownAt_eq hrec, shownAt_eq hslot, hocc, hused, if_pos rfl, if_pos rfl, hversion, hlink, hts, if_neg hunseen,
      Option.bind_some, Option.bind_some, hchain]
    simp only [hsees]
    by_cases hseen : s.txnMgr.Sees reader.startTs w.record.tupleMeta.ts
    · rw [if_pos hseen, hbehind.shownFrom_eq h.chained h.inv hunseen hseen fun other hmem hstart haborted => ?_]
      rw [h.inv.start_inj other hmem reader hreader hstart] at haborted
      simp [Transaction.isActive, haborted] at hreads
    · rw [if_neg hseen]

/-! ### Other steps -/

theorem Tracked.begin (h : s.Tracked tab rid) : s.begin.Tracked tab rid := by
  have hattr := h.toAttributed.begin
  have hquiet := quiet_begin s.txnMgr
  refine h.frame hattr (h.owned.quiet h.toAttributed hquiet) hquiet.grows (fun new hnew => ?_) fun _ _ _ _ _ _ _ _ _ => ?_
  · rcases mem_begin.mp hnew with hold | rfl
    · exact .inr ⟨new, hold, rfl, rfl, id, id, h.kinds new hold, rfl⟩
    · exact .inl rfl
  · exact ⟨rfl, rfl, rfl, fun _ _ _ hlog => hquiet.getUndoLogOptional h.inv.toIds hattr.inv.toIds hlog⟩

theorem Tracked.shownAt_begin (h : s.Tracked tab rid) : s.begin.shownAt readTs tab rid = s.shownAt readTs tab rid := by
  have hattr := h.toAttributed.begin
  have hquiet := quiet_begin s.txnMgr
  exact h.toAttributed.shownAt_congr hattr
    (fun _ hrec => hquiet.sees_iff h.inv hattr.inv (h.toAttributed.stamped_slot hrec))
    (h.toAttributed.sameLogs_quiet hattr hquiet) rfl rfl rfl

/-- Another table gets a file or loses it. -/
theorem setTable_at (s : Store) (file : Option RmFileHandle) (rid : Rid) (ht : t ≠ tab) :
    (s.setTable t file).slot tab rid = s.slot tab rid ∧ (s.setTable t file).occupied tab rid = s.occupied tab rid := by
  simp only [Store.slot, Store.occupied, Store.setTable, Function.update_of_ne (Ne.symm ht), and_self]

theorem Tracked.setTable {file : Option RmFileHandle} (h : s.Tracked tab rid) (ht : t ≠ tab)
    (hattr : (s.setTable t file).Attributed) : (s.setTable t file).Tracked tab rid := by
  obtain ⟨hslot, hocc⟩ := s.setTable_at file rid ht
  refine h.frame hattr h.owned (.refl _) (fun new hnew => .inr ⟨new, hnew, rfl, rfl, id, id, h.kinds new hnew, rfl⟩) ?_
  exact fun _ _ _ _ _ _ _ _ _ => ⟨hslot, hocc, rfl, fun _ _ _ hlog => hlog⟩

theorem shownAt_setTable {file : Option RmFileHandle} (ht : t ≠ tab) :
    (s.setTable t file).shownAt readTs tab rid = s.shownAt readTs tab rid := by
  obtain ⟨hslot, hocc⟩ := s.setTable_at file rid ht
  unfold shownAt
  rw [hslot, hocc]
  rfl

end Store
end Rmdb
