import Rmdb.System.Run
import Rmdb.Transaction.Reading

/-! Who owns a slot: as long as a transaction has a write to take back, the slot holds its own
record, and while it is active the record carries its start timestamp. -/
namespace Rmdb

/-- The transaction has an entry for the slot in its write set. -/
def Transaction.hasWritten (txn : Transaction) (tab : String) (rid : Rid) : Prop :=
  ∃ w ∈ txn.writeSet, w.tabName = tab ∧ w.rid = rid

instance (txn : Transaction) (tab : String) (rid : Rid) : Decidable (txn.hasWritten tab rid) :=
  inferInstanceAs (Decidable (∃ w ∈ txn.writeSet, _))

namespace Store

variable {s s' : Store} {tab : String} {rid : Rid} {w : HeapWrite}

/-- The newest write of a transaction to a slot. -/
def lastWriteBy (s : Store) (txnId : ℤ) (tab : String) (rid : Rid) : Option HeapWrite :=
  s.history.find? fun w => w.isAt tab rid && decide (w.txnId = txnId)

theorem lastWriteBy_spec {txnId : ℤ} (h : s.lastWriteBy txnId tab rid = some w) :
    w ∈ s.history ∧ w.tab = tab ∧ w.rid = rid ∧ w.txnId = txnId := by
  have hmem := List.mem_of_find?_eq_some h
  have hat := List.find?_some h
  simp only [Bool.and_eq_true, HeapWrite.isAt_iff, decide_eq_true_eq] at hat
  exact ⟨hmem, hat.1.1, hat.1.2, hat.2⟩

theorem lastWriteBy_cons {txnId : ℤ} (h : s'.history = w :: s.history) :
    s'.lastWriteBy txnId tab rid =
      if w.isAt tab rid ∧ w.txnId = txnId then some w else s.lastWriteBy txnId tab rid := by
  simp only [lastWriteBy, h, List.find?_cons]
  by_cases hat : w.isAt tab rid <;> by_cases hid : w.txnId = txnId <;> simp [hat, hid]

theorem lastWriteBy_congr {txnId : ℤ} (h : s'.history = s.history) :
    s'.lastWriteBy txnId tab rid = s.lastWriteBy txnId tab rid := by
  simp only [lastWriteBy, h]

/-- The record of a transaction is in a slot; while the transaction is active, under its start
timestamp. -/
structure Holds (s : Store) (txn : Transaction) (tab : String) (rid : Rid) (rec_ : RmRecord) :
    Prop where
  slot : s.slot tab rid = some rec_
  writer : rec_.writer = txn.txnId
  stamp : txn.isActive = true → rec_.tupleMeta.ts = txn.startTs

/-- Slots with writes that may still be taken back belong to their transactions. -/
structure Owned (s : Store) : Prop where
  ids : s.txnMgr.Ids
  /-- The writes of an unfinished or rolling-back transaction. -/
  pending : ∀ txn ∈ s.txnMgr.txnMap, txn.state ≠ .committed → ∀ w ∈ txn.writeSet,
    w.wtype ≠ .insertTuple ∧ ∃ rec_, s.Holds txn w.tabName w.rid rec_
  /-- All images but the first one of a slot are the transaction's own records. -/
  images : ∀ txn ∈ s.txnMgr.txnMap, txn.state ≠ .committed →
    txn.writeSet.Pairwise fun w w' =>
      w.tabName = w'.tabName → w.rid = w'.rid → w'.record.writer = txn.txnId
  events : ∀ w ∈ s.history, w.txnId < s.txnMgr.nextTxnId
  /-- What an active transaction has last written to a slot is there. -/
  latest : ∀ txn ∈ s.txnMgr.txnMap, txn.isActive = true → 1 ≤ txn.startTs → ∀ tab rid w,
    s.lastWriteBy txn.txnId tab rid = some w → w.kind ≠ .undo →
    s.Holds txn tab rid w.record ∧ w.record.tupleMeta.isDeleted = decide (w.kind = .delete) ∧
      0 ≤ rid.slotNo ∧ (s.occupied tab rid = true ∨ txn.hasWritten tab rid)

theorem Holds.congr {txn txn' : Transaction} {rec_ : RmRecord} (h : s.Holds txn tab rid rec_)
    (hid : txn'.txnId = txn.txnId) (hstart : txn'.startTs = txn.startTs)
    (hstate : txn'.isActive = true → txn.isActive = true)
    (hslot : s'.slot tab rid = s.slot tab rid) : s'.Holds txn' tab rid rec_ where
  slot := hslot.trans h.slot
  writer := h.writer.trans hid.symm
  stamp hactive := by
    rw [hstart]
    exact h.stamp (hstate hactive)

/-- A record has one writer. -/
theorem Holds.unique {a b : Transaction} {rec_ rec' : RmRecord} (ha : s.Holds a tab rid rec_)
    (hb : s.Holds b tab rid rec') : a.txnId = b.txnId := by
  obtain rfl : rec_ = rec' := Option.some.inj (ha.slot.symm.trans hb.slot)
  exact ha.writer.symm.trans hb.writer

theorem Holds.hasPage {txn : Transaction} {rec_ : RmRecord} (hids : s.txnMgr.Ids)
    (htxn : txn ∈ s.txnMgr.txnMap) (h : s.Holds txn tab rid rec_) : s.hasPage tab rid.pageNo := by
  refine hasPage_of_writer h.slot fun hinvalid => ?_
  have := (hids.bounds txn htxn).1
  rw [← h.writer, hinvalid] at this
  simp [invalidTxnId] at this

/-- Nobody else may overwrite a slot that an active transaction holds. -/
theorem Holds.not_mayOverwrite {owner txn : Transaction} {rec_ : RmRecord} {fh : RmFileHandle}
    {old : RecordView} (hids : s.txnMgr.Ids) (howner : owner ∈ s.txnMgr.txnMap)
    (hactive : owner.isActive = true) (hpos : 1 ≤ owner.startTs) (hne : owner.txnId ≠ txn.txnId)
    (h : s.Holds owner tab rid rec_) : ¬MayOverwrite s txn tab fh rid old := by
  intro hmay
  obtain ⟨cur, hcur, hid, hstart, -⟩ := hmay.runs.mem
  have hts := h.stamp hactive
  have hrec : fh.record rid = rec_ := Option.some.inj ((slot_eq hmay.file).symm.trans h.slot)
  have hconflict := conflict_of_active hids (RmFileHandle.getRecordMvcc_page hmay.visible).2 howner
    hactive hne (fun heq => hne ?_) hpos (hrec ▸ hts)
  · rw [hmay.noConflict] at hconflict
    cases hconflict
  · rw [hids.start_inj owner howner cur hcur (heq.trans hstart.symm), hid]

/-! ### Steps of a statement -/

/-- What a statement must heed. A slot that a rollback has yet to put back is free for all, and so
is what a transaction with the start timestamp 0 has written; an INSERT does not look at all what
was done to the free slot that it takes. -/
structure Heeds (s : Store) (txn : Transaction) (tab : String) (target : Rid → Prop)
    (inserting : Prop) : Prop where
  foreign : ∀ other ∈ s.txnMgr.txnMap, other.txnId ≠ txn.txnId →
    other.state = .aborted ∨ other.isActive = true ∧ other.startTs < 1 →
    ∀ rid, target rid → ¬other.hasWritten tab rid
  free : inserting → ∀ other ∈ s.txnMgr.txnMap, other.isActive = true →
    ∀ rid, target rid → ¬other.hasWritten tab rid

private theorem isActive_iff {txn : Transaction} :
    txn.isActive = true ↔ txn.state ≠ .committed ∧ txn.state ≠ .aborted := by
  cases h : txn.state <;> simp [Transaction.isActive, h]

private theorem active_or_aborted {txn : Transaction} (h : txn.state ≠ .committed) :
    txn.isActive = true ∨ txn.state = .aborted := by
  by_cases haborted : txn.state = .aborted
  · exact .inr haborted
  · exact .inl (isActive_iff.mpr ⟨h, haborted⟩)

section stmtStep

variable {tabs : String → Option TabMeta} {txn : Transaction} {target : Rid → Prop}
  {inserting : Prop} {s₀ : Store}

/-- Nothing of a table was touched. -/
private theorem Owned.same {log : UndoLog} (h : s.Owned)
    (hlogged : s.txnMgr.Logged s'.txnMgr txn.txnId log [])
    (hslots : s.SameSlots s') (hhist : s'.history = s.history) : s'.Owned := by
  have hmem : ∀ {new}, new ∈ s'.txnMgr.txnMap → ∃ old ∈ s.txnMgr.txnMap, new.txnId = old.txnId ∧
      new.startTs = old.startTs ∧ new.state = old.state ∧ new.writeSet = old.writeSet := by
    intro new hnew
    obtain ⟨old, hold, hid, hstart, hstate, hws⟩ := hlogged.mem_fields hnew
    exact ⟨old, hold, hid, hstart, hstate, by simpa using hws⟩
  refine ⟨hlogged.inert.ids h.ids, ?_, ?_, ?_, ?_⟩
  · intro new hnew hstate w hw
    obtain ⟨old, hold, hid, hstart, hst, hws⟩ := hmem hnew
    obtain ⟨hwtype, rec_, hrec⟩ := h.pending old hold (hst ▸ hstate) w (hws ▸ hw)
    refine ⟨hwtype, rec_, hrec.congr hid hstart (fun hactive => ?_) (hslots.slot _ _)⟩
    rwa [TransactionManager.isActive_congr hst] at hactive
  · intro new hnew hstate
    obtain ⟨old, hold, hid, hstart, hst, hws⟩ := hmem hnew
    rw [hws, hid]
    exact h.images old hold (hst ▸ hstate)
  · intro w hw
    rw [hlogged.inert.nextTxnId]
    exact h.events w (hhist ▸ hw)
  · intro new hnew hactive hpos tab rid w hw hkind
    obtain ⟨old, hold, hid, hstart, hst, hws⟩ := hmem hnew
    rw [lastWriteBy_congr hhist, hid] at hw
    have hold_active := (TransactionManager.isActive_congr hst) ▸ hactive
    obtain ⟨hholds, hdel, hslot, hkeeps⟩ :=
      h.latest old hold hold_active (hstart ▸ hpos) tab rid w hw hkind
    refine ⟨hholds.congr hid hstart (fun _ => hold_active) (hslots.slot _ _), hdel, hslot, ?_⟩
    rw [hslots.occupied]
    simp only [Transaction.hasWritten, hws]
    exact hkeeps

/-- Whoever may still have to find his record in a slot. -/
private def Claims (s : Store) (txn : Transaction) (tab : String) (rid : Rid) : Prop :=
  txn ∈ s.txnMgr.txnMap ∧
    (txn.isActive = true ∧ 1 ≤ txn.startTs ∧ (s.occupied tab rid = true ∨ txn.hasWritten tab rid) ∨
      txn.state ≠ .committed ∧ txn.hasWritten tab rid)

/-- A step that writes one slot which nobody else holds. Afterwards the slot holds a record of
the transaction, or the transaction has nothing to put back there. -/
private structure OwnWrite (s s' : Store) (txn : Transaction) (tab : String) (rid : Rid)
    (ws : List WriteRecord) (rec_ : RmRecord) : Prop where
  runs : s.Runs txn
  active : txn.isActive = true
  logged : ∃ log, s.txnMgr.Logged s'.txnMgr txn.txnId log ws
  put : ∃ used, s.Put s' tab rid rec_ used ∧
    (rec_.writer = txn.txnId ∧ rec_.tupleMeta.ts = txn.startTs → used = true ∨ ws ≠ [])
  other : ∀ other, s.Claims other tab rid → other.txnId ≠ txn.txnId →
    ∀ rec_, ¬s.Holds other tab rid rec_
  image : ∀ w ∈ ws, w.wtype ≠ .insertTuple ∧ w.tabName = tab ∧ w.rid = rid ∧
    s.slot tab rid = some w.record
  atMostOne : ws.Pairwise fun _ _ => False
  events : ∀ w ∈ s'.history, w ∈ s.history ∨ w.txnId = txn.txnId
  hist : ∀ id t r, id ≠ txn.txnId ∨ ¬(t = tab ∧ r = rid) →
    s'.lastWriteBy id t r = s.lastWriteBy id t r
  last : ∀ w, s'.lastWriteBy txn.txnId tab rid = some w → w.kind ≠ .undo → w.record = rec_ ∧
    w.record.tupleMeta.isDeleted = decide (w.kind = .delete) ∧ 0 ≤ rid.slotNo
  new : (rec_.writer = txn.txnId ∧ rec_.tupleMeta.ts = txn.startTs) ∨
    ws = [] ∧ (∀ cur ∈ s.txnMgr.txnMap, cur.txnId = txn.txnId → ¬cur.hasWritten tab rid) ∧
    ∀ w, s'.lastWriteBy txn.txnId tab rid = some w → w.kind = .undo

section ownWrite

variable {ws : List WriteRecord} {rec_ rec' : RmRecord} {old new : Transaction} {t : String} {r : Rid}

section
variable (h : OwnWrite s s' txn tab rid ws rec_)
include h

private theorem OwnWrite.keep (hid : new.txnId = old.txnId)
    (hstart : new.startTs = old.startTs) (hstate : new.state = old.state)
    (hne : ¬(t = tab ∧ r = rid)) (hold : s.Holds old t r rec') : s'.Holds new t r rec' := by
  obtain ⟨used, hput, -⟩ := h.put
  exact hold.congr hid hstart (fun hact => TransactionManager.isActive_congr hstate ▸ hact)
    (hput.slot_ne hne)

private theorem OwnWrite.self (hids : s.txnMgr.Ids)
    (hold : old ∈ s.txnMgr.txnMap) (hown : old.txnId = txn.txnId) (hid : new.txnId = old.txnId)
    (hstart : new.startTs = old.startTs) (hwriter : rec_.writer = txn.txnId)
    (hts : rec_.tupleMeta.ts = txn.startTs) : s'.Holds new tab rid rec_ := by
  obtain ⟨used, hput, -⟩ := h.put
  have hstart' := hstart.trans (h.runs.fields hids hold hown).1
  exact ⟨hput.slot_self, hwriter.trans (hid.trans hown).symm, fun _ => hts.trans hstart'.symm⟩

private theorem OwnWrite.pending (hs : s.Owned)
    (hnew : new ∈ s'.txnMgr.txnMap) (hstate : new.state ≠ .committed) {w : WriteRecord}
    (hw : w ∈ new.writeSet) :
    w.wtype ≠ .insertTuple ∧ ∃ rec_, s'.Holds new w.tabName w.rid rec_ := by
  obtain ⟨log, hlogged⟩ := h.logged
  obtain ⟨old, hold, hid, hstart, hst, hwrites⟩ := hlogged.mem_fields hnew
  rw [hwrites] at hw
  by_cases hown : old.txnId = txn.txnId
  · rw [if_pos hown] at hw
    rcases List.mem_append.mp hw with hw | hw
    · obtain ⟨hwtype, rec', hrec'⟩ := hs.pending old hold (hst ▸ hstate) w hw
      by_cases hat : w.tabName = tab ∧ w.rid = rid
      · rcases h.new with ⟨hwriter, hts⟩ | ⟨-, hnone, -⟩
        · refine ⟨hwtype, rec_, ?_⟩
          rw [hat.1, hat.2]
          exact h.self hs.ids hold hown hid hstart hwriter hts
        · exact absurd ⟨w, hw, hat⟩ (hnone old hold hown)
      · exact ⟨hwtype, rec', h.keep hid hstart hst hat hrec'⟩
    · obtain ⟨hwtype, htab, hrid, -⟩ := h.image w hw
      rcases h.new with ⟨hwriter, hts⟩ | ⟨hnil, -⟩
      · refine ⟨hwtype, rec_, ?_⟩
        rw [htab, hrid]
        exact h.self hs.ids hold hown hid hstart hwriter hts
      · rw [hnil] at hw
        cases hw
  · rw [if_neg hown, List.append_nil] at hw
    obtain ⟨hwtype, rec', hrec'⟩ := hs.pending old hold (hst ▸ hstate) w hw
    refine ⟨hwtype, rec', h.keep hid hstart hst (fun hat => ?_) hrec'⟩
    rw [hat.1, hat.2] at hrec'
    exact h.other old ⟨hold, .inr ⟨hst ▸ hstate, w, hw, hat⟩⟩ hown rec' hrec'

private theorem OwnWrite.images (hs : s.Owned)
    (hnew : new ∈ s'.txnMgr.txnMap) (hstate : new.state ≠ .committed) :
    new.writeSet.Pairwise fun w w' =>
      w.tabName = w'.tabName → w.rid = w'.rid → w'.record.writer = new.txnId := by
  obtain ⟨log, hlogged⟩ := h.logged
  obtain ⟨old, hold, hid, hstart, hst, hwrites⟩ := hlogged.mem_fields hnew
  have himages := hs.images old hold (hst ▸ hstate)
  rw [hwrites, hid]
  by_cases hown : old.txnId = txn.txnId
  · rw [if_pos hown, List.pairwise_append]
    refine ⟨himages, h.atMostOne.imp False.elim, fun w hw w' hw' htab hrid => ?_⟩
    -- The image of the new write is the record that the transaction already holds.
    obtain ⟨-, htab', hrid', himage⟩ := h.image w' hw'
    obtain ⟨-, rec', hrec'⟩ := hs.pending old hold (hst ▸ hstate) w hw
    rw [htab, hrid, htab', hrid'] at hrec'
    have heq : w'.record = rec' := Option.some.inj (himage.symm.trans hrec'.slot)
    rw [heq]
    exact hrec'.writer
  · rw [if_neg hown, List.append_nil]
    exact himages

private theorem OwnWrite.latest (hs : s.Owned)
    (hnew : new ∈ s'.txnMgr.txnMap) (hact : new.isActive = true) (hpos : 1 ≤ new.startTs)
    {w : HeapWrite} (hw : s'.lastWriteBy new.txnId t r = some w) (hkind : w.kind ≠ .undo) :
    s'.Holds new t r w.record ∧ w.record.tupleMeta.isDeleted = decide (w.kind = .delete) ∧
      0 ≤ r.slotNo ∧ (s'.occupied t r = true ∨ new.hasWritten t r) := by
  obtain ⟨log, hlogged⟩ := h.logged
  obtain ⟨used, hput, hused⟩ := h.put
  obtain ⟨old, hold, hid, hstart, hst, hwrites⟩ := hlogged.mem_fields hnew
  have hold_active := TransactionManager.isActive_congr hst ▸ hact
  rw [hid] at hw
  by_cases hcase : old.txnId = txn.txnId ∧ t = tab ∧ r = rid
  · obtain ⟨hown, rfl, rfl⟩ := hcase
    rw [hown] at hw
    obtain ⟨hrec, hdel, hslot⟩ := h.last w hw hkind
    rcases h.new with ⟨hwriter, hts⟩ | ⟨-, -, hundo⟩
    · refine ⟨?_, hdel, hslot, ?_⟩
      · rw [hrec]
        exact h.self hs.ids hold hown hid hstart hwriter hts
      · rcases hused ⟨hwriter, hts⟩ with rfl | hws
        · left
          rw [hput.occupied, if_pos ⟨rfl, rfl⟩]
        · right
          obtain ⟨w', hw'⟩ := List.exists_mem_of_ne_nil ws hws
          refine ⟨w', ?_, (h.image w' hw').2.1, (h.image w' hw').2.2.1⟩
          rw [hwrites, if_pos hown]
          exact List.mem_append_right _ hw'
    · exact absurd (hundo w hw) hkind
  · rw [h.hist old.txnId t r (by tauto)] at hw
    obtain ⟨hholds, hdel, hslot, hkeeps⟩ := hs.latest old hold hold_active (hstart ▸ hpos) t r w hw hkind
    have hne : ¬(t = tab ∧ r = rid) := by
      rintro ⟨rfl, rfl⟩
      exact h.other old ⟨hold, .inl ⟨hold_active, hstart ▸ hpos, hkeeps⟩⟩
        (fun hown => hcase ⟨hown, rfl, rfl⟩) _ hholds
    refine ⟨h.keep hid hstart hst hne hholds, hdel, hslot, ?_⟩
    rcases hkeeps with hocc | ⟨w', hw', hat⟩
    · left
      rw [hput.occupied, if_neg hne]
      exact hocc
    · right
      refine ⟨w', ?_, hat⟩
      rw [hwrites]
      exact List.mem_append_left _ hw'

private theorem OwnWrite.owned (hs : s.Owned) : s'.Owned := by
  obtain ⟨log, hlogged⟩ := h.logged
  refine ⟨hlogged.inert.ids hs.ids, fun new hnew hstate w hw => h.pending hs hnew hstate hw,
    fun new hnew hstate => h.images hs hnew hstate, fun w hw => ?_,
    fun new hnew hact hpos t r w hw hkind => h.latest hs hnew hact hpos hw hkind⟩
  rw [hlogged.inert.nextTxnId]
  rcases h.events w hw with hw | hw
  · exact hs.events w hw
  · obtain ⟨cur, hcur, hid, -⟩ := h.runs.mem
    rw [hw, ← hid]
    exact (hs.ids.bounds cur hcur).2

end

end ownWrite

/-- The history after a step of a transaction at one slot. -/
private theorem lastWriteBy_other {id : ℤ} {t : String} {r : Rid} {es : List HeapWrite}
    (hhist : s'.history = es ++ s.history)
    (hes : ∀ e ∈ es, e.txnId = txn.txnId ∧ e.tab = tab ∧ e.rid = rid)
    (hne : id ≠ txn.txnId ∨ ¬(t = tab ∧ r = rid)) :
    s'.lastWriteBy id t r = s.lastWriteBy id t r := by
  simp only [lastWriteBy, hhist, List.find?_append]
  have hnone : es.find? (fun w => w.isAt t r && decide (w.txnId = id)) = none := by
    rw [List.find?_eq_none]
    intro e he hcond
    simp only [Bool.and_eq_true, HeapWrite.isAt_iff, decide_eq_true_eq] at hcond
    obtain ⟨hid, htab, hrid⟩ := hes e he
    rcases hne with hne | hne
    · exact hne (hcond.2.symm.trans hid)
    · exact hne ⟨hcond.1.1.symm.trans htab, hcond.1.2.symm.trans hrid⟩
  rw [hnone, Option.none_or]

private theorem mem_history {es : List HeapWrite} (hhist : s'.history = es ++ s.history)
    (hes : ∀ e ∈ es, e.txnId = txn.txnId ∧ e.tab = tab ∧ e.rid = rid) :
    ∀ w ∈ s'.history, w ∈ s.history ∨ w.txnId = txn.txnId := by
  intro w hw
  rw [hhist] at hw
  rcases List.mem_append.mp hw with hw | hw
  · exact .inr (hes w hw).1
  · exact .inl hw

theorem Owned.stmtStep (h : s.Owned) (hstep : StmtStep tabs txn tab target inserting s₀ s s')
    (hactive : txn.isActive = true) (hheeds : s.Heeds txn tab target (inserting ∧ s = s₀)) :
    s'.Owned := by
  -- Nobody holds a free slot that an INSERT may take.
  have unclaimed : ∀ {rid}, inserting → s = s₀ → target rid → s.occupied tab rid = false →
      ∀ other, s.Claims other tab rid → other.txnId = txn.txnId := by
    rintro rid hins hfirst htarget hfree other ⟨hmem, hclaim⟩
    by_contra hne
    rcases hclaim with ⟨hact, -, hocc | hwritten⟩ | ⟨hstate, hwritten⟩
    · rw [hfree] at hocc
      cases hocc
    · exact hheeds.free ⟨hins, hfirst⟩ other hmem hact rid htarget hwritten
    · rcases active_or_aborted hstate with hact | haborted
      · exact hheeds.free ⟨hins, hfirst⟩ other hmem hact rid htarget hwritten
      · exact hheeds.foreign other hmem hne (.inl haborted) rid htarget hwritten
  cases hstep.outcome with
  | notInserted runs logged slots history version => exact h.same logged slots history
  | logged may htab target logged slots history version => exact h.same logged slots history
  | inserted hins first runs file htarget slotNo free logged put history version =>
    rename_i fh rid n data
    let event : HeapWrite := ⟨txn.txnId, tab, rid, .insert, insertedRecord txn tab data rid⟩
    have hes : ∀ e ∈ [event], e.txnId = txn.txnId ∧ e.tab = tab ∧ e.rid = rid := by simp [event]
    refine OwnWrite.owned ⟨runs, hactive, ⟨_, logged⟩, ⟨_, put, fun _ => .inl rfl⟩,
      fun other hclaim hne => absurd (unclaimed hins first htarget free other hclaim) hne,
      fun _ hw => absurd hw List.not_mem_nil, .nil, mem_history history hes,
      fun id t r => lastWriteBy_other history hes, fun w hw _ => ?_, .inl ⟨rfl, rfl⟩⟩ h
    rw [lastWriteBy_cons history, if_pos ⟨by simp, rfl⟩] at hw
    cases hw
    exact ⟨rfl, rfl, slotNo⟩
  | refused hins first runs file htarget slotNo free logged put history version =>
    rename_i fh rid n data
    let freed : HeapWrite := ⟨txn.txnId, tab, rid, .undo, zeroRecord fh.recordSize⟩
    let event : HeapWrite := ⟨txn.txnId, tab, rid, .insert, insertedRecord txn tab data rid⟩
    have hes : ∀ e ∈ [freed, event], e.txnId = txn.txnId ∧ e.tab = tab ∧ e.rid = rid := by
      simp [freed, event]
    have hundo : ∀ w, s'.lastWriteBy txn.txnId tab rid = some w → w.kind = .undo := by
      intro w hw
      simp only [lastWriteBy, history, List.find?_cons, HeapWrite.isAt] at hw
      simp only [and_self, decide_true, Bool.and_self, Option.some.injEq] at hw
      rw [← hw]
    have hinvalid : ¬((zeroRecord fh.recordSize).writer = txn.txnId ∧
        (zeroRecord fh.recordSize).tupleMeta.ts = txn.startTs) := by
      rintro ⟨hwriter, -⟩
      obtain ⟨cur, hcur, hid, -⟩ := runs.mem
      have := (h.ids.bounds cur hcur).1
      rw [hid, ← hwriter] at this
      simp [zeroRecord, invalidTxnId] at this
    refine OwnWrite.owned ⟨runs, hactive, ⟨_, logged⟩, ⟨_, put, fun hown => absurd hown hinvalid⟩,
      fun other hclaim hne => absurd (unclaimed hins first htarget free other hclaim) hne,
      fun _ hw => absurd hw List.not_mem_nil, .nil, mem_history history hes,
      fun id t r => lastWriteBy_other history hes, fun w hw hkind => absurd (hundo w hw) hkind,
      .inr ⟨rfl, fun cur hcur hid => ?_, hundo⟩⟩ h
    have hcur_active : cur.isActive = true :=
      (TransactionManager.isActive_congr (runs.fields h.ids hcur hid).2).trans hactive
    exact hheeds.free ⟨hins, first⟩ cur hcur hcur_active rid htarget
  | overwritten may htab htarget write logged put history version =>
    rename_i fh tabMeta rid old wtype log rec_
    let event : HeapWrite := ⟨txn.txnId, tab, rid, if wtype = .deleteTuple then .delete else .update, rec_⟩
    have hes : ∀ e ∈ [event], e.txnId = txn.txnId ∧ e.tab = tab ∧ e.rid = rid := by simp [event]
    have hrec : wtype ≠ .insertTuple ∧ rec_.writer = txn.txnId ∧ rec_.tupleMeta.ts = txn.startTs ∧
        rec_.tupleMeta.isDeleted = decide (event.kind = .delete) := by
      cases write <;> simp [event, updatedRecord, deletedRecord]
    refine OwnWrite.owned ⟨may.runs, hactive, ⟨_, logged⟩,
      ⟨_, put, fun _ => .inr (List.cons_ne_nil _ _)⟩, fun other hclaim hne rec' hholds => ?_,
      fun w hw => ?_, List.pairwise_singleton _ _, mem_history history hes,
      fun id t r => lastWriteBy_other history hes, fun w hw _ => ?_, .inl ⟨hrec.2.1, hrec.2.2.1⟩⟩ h
    · obtain ⟨hmem, ⟨hact, hpos, -⟩ | ⟨hstate, hwritten⟩⟩ := hclaim
      · exact hholds.not_mayOverwrite h.ids hmem hact hpos hne may
      · rcases active_or_aborted hstate with hact | haborted
        · by_cases hpos : 1 ≤ other.startTs
          · exact hholds.not_mayOverwrite h.ids hmem hact hpos hne may
          · exact hheeds.foreign other hmem hne (.inr ⟨hact, not_le.mp hpos⟩) rid htarget hwritten
        · exact hheeds.foreign other hmem hne (.inl haborted) rid htarget hwritten
    · rw [List.mem_singleton.mp hw]
      exact ⟨hrec.1, rfl, rfl, slot_eq may.file⟩
    · rw [lastWriteBy_cons history, if_pos ⟨by simp, rfl⟩] at hw
      cases hw
      exact ⟨rfl, hrec.2.2.2, (RmFileHandle.getRecordMvcc_page may.visible).1⟩

end stmtStep

/-- All steps of a statement: meanwhile the others neither write nor end, and an insertion is the
first step. -/
theorem Owned.stmtSteps {tabs : String → Option TabMeta} {txn : Transaction} {target : Rid → Prop}
    {inserting : Prop} (h : s.Owned) (hsteps : StmtSteps tabs txn tab target inserting s s s')
    (hactive : txn.isActive = true) (hheeds : s.Heeds txn tab target inserting) : s'.Owned := by
  have hforeign : s'.Owned ∧ s'.Heeds txn tab target (inserting ∧ s' = s) := by
    induction hsteps with
    | refl => exact ⟨h, hheeds.foreign, fun hins => hheeds.free hins.1⟩
    | tail _ hstep ih =>
      rename_i mid new _
      refine ⟨ih.1.stmtStep hstep hactive ih.2, ?_, ?_⟩
      · intro other hother hne hstate
        obtain ⟨log, ws, hlogged⟩ := hstep.logged
        obtain ⟨old, hold, ⟨-, rfl⟩ | ⟨hid, rfl⟩⟩ := hlogged.mem hother
        · exact ih.2.foreign other hold hne hstate
        · exact absurd hid hne
      · rintro ⟨hins, rfl⟩
        exact hheeds.free hins
  exact hforeign.1

/-! ### The other steps -/

theorem Owned.begin (h : s.Owned) : s.begin.Owned := by
  have hnext := h.ids.next
  refine ⟨h.ids.begin, ?_, ?_, fun w hw => ?_, ?_⟩
  · intro txn htxn hstate w hw
    rcases TransactionManager.mem_begin.mp htxn with htxn | rfl
    · obtain ⟨hwtype, rec_, hrec⟩ := h.pending txn htxn hstate w hw
      exact ⟨hwtype, rec_, hrec.congr rfl rfl id rfl⟩
    · cases hw
  · intro txn htxn hstate
    rcases TransactionManager.mem_begin.mp htxn with htxn | rfl
    · exact h.images txn htxn hstate
    · exact .nil
  · have := h.events w hw
    simp only [Store.begin, TransactionManager.begin]
    omega
  · intro txn htxn hactive hpos tab rid w hw hkind
    rcases TransactionManager.mem_begin.mp htxn with htxn | rfl
    · obtain ⟨hholds, hrest⟩ := h.latest txn htxn hactive hpos tab rid w hw hkind
      exact ⟨hholds.congr rfl rfl id rfl, hrest⟩
    · obtain ⟨hmem, -, -, hid⟩ := lastWriteBy_spec hw
      have := h.events w hmem
      simp only [hid, TransactionManager.newTransaction, lt_self_iff_false] at this

/-- A commit leaves alone what another transaction holds. -/
private theorem Holds.commit {cur txn : Transaction} {rec_ : RmRecord} (hids : s.txnMgr.Ids)
    (hcur : cur ∈ s.txnMgr.txnMap) (htxn : txn ∈ s.txnMgr.txnMap) (hne : txn.txnId ≠ cur.txnId)
    (h : s.Holds txn tab rid rec_) :
    ∃ rec', (s.commit cur).Holds txn tab rid rec' ∧ (txn.isActive = true → rec' = rec_) := by
  rcases commit_slot s cur tab rid with ⟨hsame, -⟩ | ⟨rec', hrec, hst, hnew⟩
  · exact ⟨rec_, h.congr rfl rfl id hsame, fun _ => rfl⟩
  · obtain rfl : rec_ = rec' := Option.some.inj (h.slot.symm.trans hrec)
    have hinactive : ¬txn.isActive = true := by
      intro hactive
      have hts := (h.stamp hactive).symm.trans hst.2.2.1
      exact hne (congrArg _ (hids.start_inj txn htxn cur hcur hts))
    exact ⟨_, ⟨hnew, h.writer, fun hactive => absurd hactive hinactive⟩,
      fun hactive => absurd hactive hinactive⟩

theorem Owned.commit {cur : Transaction} (h : s.Owned) (hcur : cur ∈ s.txnMgr.txnMap) :
    (s.commit cur).Owned := by
  have hmem : ∀ {txn}, txn ∈ (s.commit cur).txnMgr.txnMap → txn.state ≠ .committed →
      txn ∈ s.txnMgr.txnMap ∧ txn.txnId ≠ cur.txnId := by
    intro txn htxn hstate
    rw [commit_txnMgr] at htxn
    obtain ⟨old, hold, ⟨hid, rfl⟩ | ⟨-, rfl⟩⟩ := TransactionManager.mem_commitTxn htxn
    · exact ⟨hold, hid⟩
    · exact absurd rfl hstate
  refine ⟨?_, ?_, ?_, ?_, ?_⟩
  · rw [commit_txnMgr]
    exact h.ids.commitTxn
  · intro txn htxn hstate w hw
    obtain ⟨hold, hne⟩ := hmem htxn hstate
    obtain ⟨hwtype, rec_, hrec⟩ := h.pending txn hold hstate w hw
    obtain ⟨rec', hrec', -⟩ := hrec.commit h.ids hcur hold hne
    exact ⟨hwtype, rec', hrec'⟩
  · intro txn htxn hstate
    exact h.images txn (hmem htxn hstate).1 hstate
  · intro w hw
    rw [commit_history] at hw
    rw [commit_txnMgr]
    exact h.events w hw
  · intro txn htxn hactive hpos tab rid w hw hkind
    obtain ⟨hold, hne⟩ := hmem htxn (isActive_iff.mp hactive).1
    rw [lastWriteBy_congr commit_history] at hw
    obtain ⟨hholds, hrest⟩ := h.latest txn hold hactive hpos tab rid w hw hkind
    obtain ⟨rec', hrec', heq⟩ := hholds.commit h.ids hcur hold hne
    rw [heq hactive] at hrec'
    rw [commit_restamped.occupied]
    exact ⟨hrec', hrest⟩

theorem Owned.markAborted {cur : Transaction} (h : s.Owned) (hactive : cur.isActive = true)
    (hcur : cur ∈ s.txnMgr.txnMap) : (s.markAborted cur).Owned := by
  have hmem : ∀ {txn}, txn ∈ (s.markAborted cur).txnMgr.txnMap → ∃ old ∈ s.txnMgr.txnMap,
      txn.txnId = old.txnId ∧ txn.startTs = old.startTs ∧ txn.writeSet = old.writeSet ∧
      (txn.isActive = true → txn = old) ∧ (txn.state ≠ .committed → old.state ≠ .committed) := by
    intro txn htxn
    obtain ⟨old, hold, ⟨-, rfl⟩ | ⟨hid, rfl⟩⟩ := TransactionManager.mem_markAborted htxn
    · exact ⟨txn, hold, rfl, rfl, rfl, fun _ => rfl, id⟩
    · refine ⟨old, hold, rfl, rfl, rfl, fun hact => ?_, fun _ => ?_⟩
      · simp [Transaction.isActive] at hact
      · rw [h.ids.id_inj old hold cur hcur hid]
        exact (isActive_iff.mp hactive).1
  refine ⟨h.ids.markAborted, ?_, ?_, h.events, ?_⟩
  · intro txn htxn hstate w hw
    obtain ⟨old, hold, hid, hstart, hwrites, hact, hst⟩ := hmem htxn
    obtain ⟨hwtype, rec_, hrec⟩ := h.pending old hold (hst hstate) w (hwrites ▸ hw)
    exact ⟨hwtype, rec_, hrec.congr hid hstart (fun hactive => hact hactive ▸ hactive) rfl⟩
  · intro txn htxn hstate
    obtain ⟨old, hold, hid, -, hwrites, -, hst⟩ := hmem htxn
    rw [hwrites, hid]
    exact h.images old hold (hst hstate)
  · intro txn htxn hact hpos tab rid w hw hkind
    obtain ⟨old, hold, -, -, -, heq, -⟩ := hmem htxn
    obtain rfl := heq hact
    obtain ⟨hholds, hrest⟩ := h.latest txn hold hact hpos tab rid w hw hkind
    exact ⟨hholds.congr rfl rfl id rfl, hrest⟩

/-- The slot that a rollback is about to put back holds a record of the transaction itself. -/
theorem Owned.rollback_own {txnId : ℤ} {cur : Transaction} {last : WriteRecord} (h : s.Owned)
    (hcur : s.txnMgr.getTransaction txnId = some cur) (hstate : cur.state ≠ .committed)
    (hlast : cur.writeSet.getLast? = some last) :
    last.wtype ≠ .insertTuple ∧ ∃ rec_, s.slot last.tabName last.rid = some rec_ ∧
      rec_.writer = txnId := by
  obtain ⟨hmem, hid⟩ := TransactionManager.mem_of_getTransaction hcur
  obtain ⟨hwtype, rec_, hrec⟩ := h.pending cur hmem hstate last (List.mem_of_getLast? hlast)
  exact ⟨hwtype, rec_, hrec.slot, hrec.writer.trans hid⟩

theorem Owned.rollbackOne {txnId : ℤ} {cur : Transaction} (h : s.Owned)
    (hcur : s.txnMgr.getTransaction txnId = some cur) (haborted : cur.state = .aborted)
    (hroll : s.rollbackOne txnId = some s') : s'.Owned := by
  obtain ⟨cur', last, fh, hcur', hlast, hfh, htm, hfhs, hhist⟩ := rollbackOne_eq hroll
  obtain rfl : cur' = cur := Option.some.inj (hcur'.symm.trans hcur)
  obtain ⟨hmem, rfl⟩ := TransactionManager.mem_of_getTransaction hcur
  have hcommitted : cur'.state ≠ .committed := by simp [haborted]
  have hlast_mem := List.mem_of_getLast? hlast
  obtain ⟨hwtype, owned, howned⟩ := h.pending cur' hmem hcommitted last hlast_mem
  have hput := undoWrite_put hfh ⟨hwtype, howned.hasPage h.ids hmem⟩ hfhs
  have hsplit : cur'.writeSet = cur'.writeSet.dropLast ++ [last] := by
    rw [List.dropLast_append_getLast? last hlast]
  have himages := h.images cur' hmem hcommitted
  rw [hsplit, List.pairwise_append] at himages
  have hmem_new : ∀ {new}, new ∈ s'.txnMgr.txnMap → ∃ old ∈ s.txnMgr.txnMap,
      (old.txnId ≠ cur'.txnId ∧ new = old) ∨
        (old = cur' ∧ new = { cur' with writeSet := cur'.writeSet.dropLast }) := by
    intro new hnew
    rw [htm] at hnew
    obtain ⟨old, hold, rfl⟩ := TransactionManager.mem_modifyTxn hnew
    refine ⟨old, hold, ?_⟩
    by_cases hid : old.txnId = cur'.txnId
    · obtain rfl := h.ids.id_inj old hold cur' hmem hid
      exact .inr ⟨rfl, if_pos rfl⟩
    · exact .inl ⟨hid, if_neg hid⟩
  -- What somebody else holds is in another slot.
  have hne : ∀ {old rec_ t r}, old.txnId ≠ cur'.txnId → s.Holds old t r rec_ →
      ¬(t = last.tabName ∧ r = last.rid) := by
    rintro old rec_ t r hid hholds ⟨rfl, rfl⟩
    exact hid (hholds.unique howned)
  refine ⟨(rollbackOne_inert hroll).ids h.ids, ?_, ?_, fun w hw => ?_, ?_⟩
  · intro new hnew hstate w hw
    obtain ⟨old, hold, ⟨hid, rfl⟩ | ⟨rfl, rfl⟩⟩ := hmem_new hnew
    · obtain ⟨hwtype', rec_, hrec⟩ := h.pending new hold hstate w hw
      exact ⟨hwtype', rec_, hrec.congr rfl rfl id (hput.slot_ne (hne hid hrec))⟩
    · have hw_old : w ∈ old.writeSet := List.dropLast_subset _ hw
      obtain ⟨hwtype', rec_, hrec⟩ := h.pending old hold hcommitted w hw_old
      have hinactive : ¬old.isActive = true := by simp [Transaction.isActive, haborted]
      by_cases hat : w.tabName = last.tabName ∧ w.rid = last.rid
      · refine ⟨hwtype', last.record, ?_, ?_, fun hact => absurd hact hinactive⟩
        · rw [hat.1, hat.2]
          exact hput.slot_self
        · exact himages.2.2 w hw last (by simp) hat.1 hat.2
      · exact ⟨hwtype', rec_, hrec.congr rfl rfl id (hput.slot_ne hat)⟩
  · intro new hnew hstate
    obtain ⟨old, hold, ⟨-, rfl⟩ | ⟨rfl, rfl⟩⟩ := hmem_new hnew
    · exact h.images new hold hstate
    · exact himages.1
  · rw [(rollbackOne_inert hroll).nextTxnId]
    rw [hhist] at hw
    rcases List.mem_cons.mp hw with rfl | hw
    · exact (h.ids.bounds cur' hmem).2
    · exact h.events w hw
  · intro new hnew hact hpos tab rid w hw hkind
    obtain ⟨old, hold, ⟨hid, rfl⟩ | ⟨rfl, rfl⟩⟩ := hmem_new hnew
    · rw [lastWriteBy_cons hhist, if_neg (fun hcond => hid hcond.2.symm)] at hw
      obtain ⟨hholds, hrest⟩ := h.latest new hold hact hpos tab rid w hw hkind
      rw [hput.occupied, if_neg (hne hid hholds)]
      exact ⟨hholds.congr rfl rfl id (hput.slot_ne (hne hid hholds)), hrest⟩
    · simp [Transaction.isActive, haborted] at hact

theorem Owned.garbageCollection (h : s.Owned) : s.garbageCollection.Owned where
  ids := h.ids.garbageCollection
  pending txn htxn hstate w hw := by
    have hold := (TransactionManager.mem_garbageCollection.mp htxn).1
    obtain ⟨hwtype, rec_, hrec⟩ := h.pending txn hold hstate w hw
    exact ⟨hwtype, rec_, hrec.congr rfl rfl id rfl⟩
  images txn htxn := h.images txn (TransactionManager.mem_garbageCollection.mp htxn).1
  events := h.events
  latest txn htxn hactive hpos tab rid w hw hkind := by
    have hold := (TransactionManager.mem_garbageCollection.mp htxn).1
    obtain ⟨hholds, hrest⟩ := h.latest txn hold hactive hpos tab rid w hw hkind
    exact ⟨hholds.congr rfl rfl id rfl, hrest⟩

end Store
end Rmdb
