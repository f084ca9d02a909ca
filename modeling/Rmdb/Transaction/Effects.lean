import Mathlib.Data.List.Induction
import Rmdb.Transaction.Invariant

/-! What each operation on the store does to the slots of the tables, to the history and to
the transaction table. -/
namespace Rmdb

def WriteRecord.isAt (w : WriteRecord) (tab : String) (rid : Rid) : Bool :=
  decide (w.tabName = tab ∧ w.rid = rid)

def HeapWrite.isAt (w : HeapWrite) (tab : String) (rid : Rid) : Bool :=
  decide (w.tab = tab ∧ w.rid = rid)

@[simp] theorem WriteRecord.isAt_iff {w : WriteRecord} {tab : String} {rid : Rid} :
    w.isAt tab rid = true ↔ w.tabName = tab ∧ w.rid = rid := by simp [WriteRecord.isAt]

@[simp] theorem HeapWrite.isAt_iff {w : HeapWrite} {tab : String} {rid : Rid} :
    w.isAt tab rid = true ↔ w.tab = tab ∧ w.rid = rid := by simp [HeapWrite.isAt]

namespace Store

variable {s s' s'' : Store} {tab t : String} {rid r : Rid} {fh fh' : RmFileHandle} {rec_ : RmRecord}
  {used : Bool} {txn : Transaction}

/-- The newest write to a slot. -/
def lastWrite (s : Store) (tab : String) (rid : Rid) : Option HeapWrite :=
  s.history.find? (·.isAt tab rid)

theorem slot_eq (h : s.fhs tab = some fh) : s.slot tab rid = some (fh.record rid) := by
  simp [slot, h]

theorem occupied_eq (h : s.fhs tab = some fh) : s.occupied tab rid = fh.isRecord rid := by
  simp [occupied, h]

theorem hasPage_iff (h : s.fhs tab = some fh) {p : ℤ} : s.hasPage tab p ↔ fh.hasPage p := by
  simp [hasPage, h]

/-- The tables hold what they held; pages may have been added. -/
structure SameSlots (s s' : Store) : Prop where
  slot : ∀ t r, s'.slot t r = s.slot t r
  occupied : ∀ t r, s'.occupied t r = s.occupied t r
  hasPage : ∀ t p, s.hasPage t p → s'.hasPage t p
  recordSize : ∀ t, (s'.fhs t).map (·.recordSize) = (s.fhs t).map (·.recordSize)

/-- One slot was written; `used` says whether it is marked as used afterwards. -/
structure Put (s s' : Store) (tab : String) (rid : Rid) (rec_ : RmRecord) (used : Bool) : Prop where
  slot : ∀ t r, s'.slot t r = if t = tab ∧ r = rid then some rec_ else s.slot t r
  occupied : ∀ t r, s'.occupied t r = if t = tab ∧ r = rid then used else s.occupied t r
  hasPage : ∀ t p, s.hasPage t p → s'.hasPage t p
  page : s'.hasPage tab rid.pageNo
  recordSize : ∀ t, (s'.fhs t).map (·.recordSize) = (s.fhs t).map (·.recordSize)

theorem SameSlots.of_fhs (h : s'.fhs = s.fhs) : SameSlots s s' := by
  constructor
  all_goals intros
  all_goals simp_all only [Store.slot, Store.occupied, Store.hasPage]

theorem SameSlots.trans (h : SameSlots s s') (h' : SameSlots s' s'') : SameSlots s s'' where
  slot t r := (h'.slot t r).trans (h.slot t r)
  occupied t r := (h'.occupied t r).trans (h.occupied t r)
  hasPage t p hp := h'.hasPage t p (h.hasPage t p hp)
  recordSize t := (h'.recordSize t).trans (h.recordSize t)

theorem Put.slot_self (h : Put s s' tab rid rec_ used) : s'.slot tab rid = some rec_ := by
  rw [h.slot, if_pos ⟨rfl, rfl⟩]

theorem Put.slot_ne (h : Put s s' tab rid rec_ used) (hne : ¬(t = tab ∧ r = rid)) :
    s'.slot t r = s.slot t r := by
  rw [h.slot, if_neg hne]

theorem Put.trans {rec' : RmRecord} {used' : Bool} (h : Put s s' tab rid rec_ used)
    (h' : Put s' s'' tab rid rec' used') : Put s s'' tab rid rec' used' where
  slot t r := by
    rw [h'.slot]
    split
    · rfl
    · rename_i hne
      rw [h.slot, if_neg hne]
  occupied t r := by
    rw [h'.occupied]
    split
    · rfl
    · rename_i hne
      rw [h.occupied, if_neg hne]
  hasPage t p hp := h'.hasPage t p (h.hasPage t p hp)
  page := h'.page
  recordSize t := (h'.recordSize t).trans (h.recordSize t)

private theorem update_fhs (hfhs : s'.fhs = Function.update s.fhs tab (some fh')) :
    s'.fhs t = if t = tab then some fh' else s.fhs t := by
  rw [hfhs, Function.update_apply]

/-- A table that keeps its pages and the size of its records is replaced. -/
private theorem keeps_of_update (h : s.fhs tab = some fh) (hfhs : s'.fhs = Function.update s.fhs tab (some fh'))
    (hpage : ∀ p, fh.hasPage p → fh'.hasPage p) (hsize : fh'.recordSize = fh.recordSize) :
    (∀ t p, s.hasPage t p → s'.hasPage t p) ∧ ∀ t, (s'.fhs t).map (·.recordSize) = (s.fhs t).map (·.recordSize) := by
  constructor
  · intro t p hp
    by_cases ht : t = tab
    · subst ht
      exact ⟨fh', by rw [update_fhs hfhs, if_pos rfl], hpage p ((hasPage_iff h).mp hp)⟩
    · obtain ⟨fh₀, hfh₀, hp⟩ := hp
      exact ⟨fh₀, by rw [update_fhs hfhs, if_neg ht, hfh₀], hp⟩
  · intro t
    by_cases ht : t = tab
    · subst ht
      simp [update_fhs hfhs, h, hsize]
    · simp [update_fhs hfhs, ht]

theorem sameSlots_of_sameRecords (h : s.fhs tab = some fh) (hsame : fh.SameRecords fh')
    (hfhs : s'.fhs = Function.update s.fhs tab (some fh')) : SameSlots s s' := by
  obtain ⟨hpages, hsizes⟩ := keeps_of_update h hfhs hsame.hasPage hsame.recordSize
  refine ⟨fun t r => ?_, fun t r => ?_, hpages, hsizes⟩ <;> by_cases ht : t = tab
  · subst ht
    simp [Store.slot, update_fhs hfhs, h, hsame.record]
  · simp [Store.slot, update_fhs hfhs, ht]
  · subst ht
    simp [Store.occupied, update_fhs hfhs, h, hsame.isRecord]
  · simp [Store.occupied, update_fhs hfhs, ht]

theorem put_of_wrote (h : s.fhs tab = some fh) (hw : fh.Wrote fh' rid rec_ used)
    (hfhs : s'.fhs = Function.update s.fhs tab (some fh')) : Put s s' tab rid rec_ used := by
  obtain ⟨hpages, hsizes⟩ := keeps_of_update h hfhs hw.hasPage hw.recordSize
  refine ⟨fun t r => ?_, fun t r => ?_, hpages, ⟨fh', by rw [update_fhs hfhs, if_pos rfl], hw.page⟩, hsizes⟩ <;>
    by_cases ht : t = tab
  · subst ht
    by_cases hr : r = rid <;> simp [Store.slot, update_fhs hfhs, h, hw.record, hr]
  · simp [Store.slot, update_fhs hfhs, ht]
  · subst ht
    by_cases hr : r = rid <;> simp [Store.occupied, update_fhs hfhs, h, hw.isRecord, hr]
  · simp [Store.occupied, update_fhs hfhs, ht]

/-! ### The writes of a statement -/

/-- An insertion that found no slot, or one that filled a free slot. -/
theorem insertTuple_spec (h : s.fhs tab = some fh) (txn : Transaction) (data : Bytes) (n : ℕ) :
    let rid := (fh.insertRecord (insertedRecord txn tab data)).1
    let s' := (s.insertTuple txn tab fh data n).2
    (rid = ⟨-1, -1⟩ ∧ SameSlots s s' ∧ s'.history = s.history) ∨
      (rid ≠ ⟨-1, -1⟩ ∧ s.occupied tab rid = false ∧
        Put s s' tab rid (insertedRecord txn tab data rid) true ∧
        s'.history = ⟨txn.txnId, tab, rid, .insert, insertedRecord txn tab data rid⟩ :: s.history) := by
  intro rid s'
  have hhist : s'.history = if rid = ⟨-1, -1⟩ then s.history
      else ⟨txn.txnId, tab, rid, .insert, insertedRecord txn tab data rid⟩ :: s.history := rfl
  rcases RmFileHandle.insertRecord_spec fh (insertedRecord txn tab data) with
    ⟨hrid, hsame⟩ | ⟨hfree, hw⟩
  · refine .inl ⟨hrid, sameSlots_of_sameRecords h hsame rfl, ?_⟩
    rw [hhist, if_pos hrid]
  · have hrid : rid ≠ ⟨-1, -1⟩ := by
      intro hrid
      have hpage := hw.page
      change (fh.insertRecord (insertedRecord txn tab data)).2.hasPage rid.pageNo at hpage
      rw [hrid] at hpage
      simp [RmFileHandle.hasPage, rmFirstRecordPage] at hpage
    refine .inr ⟨hrid, (occupied_eq h).trans hfree, put_of_wrote h hw rfl, ?_⟩
    rw [hhist, if_neg hrid]

/-- The removal of a row that was just inserted. -/
theorem dropInserted_spec (h : s.fhs tab = some fh) (txn : Transaction) (rid : Rid) :
    let s' := s.dropInserted txn tab fh rid
    (s.occupied tab rid = false ∧ SameSlots s s' ∧ s'.history = s.history) ∨
      (s.occupied tab rid = true ∧ Put s s' tab rid (zeroRecord fh.recordSize) false ∧
        s'.history = ⟨txn.txnId, tab, rid, .undo, zeroRecord fh.recordSize⟩ :: s.history) := by
  intro s'
  have hhist : s'.history = if fh.isRecord rid = true then
      ⟨txn.txnId, tab, rid, .undo, zeroRecord fh.recordSize⟩ :: s.history else s.history := rfl
  cases hocc : fh.isRecord rid with
  | false =>
    refine .inl ⟨(occupied_eq h).trans hocc, ?_, by rw [hhist, hocc]; rfl⟩
    have hdel : fh.deleteRecord rid = fh := by simp [RmFileHandle.deleteRecord, hocc]
    exact sameSlots_of_sameRecords h (.refl fh) (by simp only [s', dropInserted, hdel])
  | true =>
    refine .inr ⟨(occupied_eq h).trans hocc, ?_, by rw [hhist, hocc]; rfl⟩
    exact put_of_wrote h (RmFileHandle.deleteRecord_wrote hocc) rfl

theorem installVersion_put (h : s.fhs tab = some fh) (hpage : fh.hasPage rid.pageNo)
    (txn : Transaction) (wtype : WType) (link : UndoLink) (rec_ : RmRecord) :
    Put s (s.installVersion txn tab fh wtype rid link rec_) tab rid rec_ (s.occupied tab rid) := by
  rw [occupied_eq h]
  exact put_of_wrote h (RmFileHandle.updateRecord_wrote hpage) rfl

/-! ### Commit -/

/-- A record with another timestamp in its header. -/
def stamped (ts : ℤ) (rec_ : RmRecord) : RmRecord :=
  { rec_ with tupleMeta := { rec_.tupleMeta with ts } }

/-- Whether a commit gives the record in a slot its commit timestamp. -/
def Restamps (s : Store) (txn : Transaction) (commitTs : ℤ) (ws : List WriteRecord) (tab : String)
    (rid : Rid) (rec_ : RmRecord) : Prop :=
  (∃ w ∈ ws, w.tabName = tab ∧ w.rid = rid) ∧ s.occupied tab rid = true ∧
    rec_.tupleMeta.ts = txn.startTs ∧ txn.startTs < commitTs

/-- The slots of `s'` are those of `s` with some of them restamped. -/
structure Restamped (s s' : Store) (txn : Transaction) (commitTs : ℤ) (ws : List WriteRecord) :
    Prop where
  slot : ∀ t r, s'.slot t r = s.slot t r ∧ (∀ rec_, s.slot t r = some rec_ →
      ¬Restamps s txn commitTs ws t r rec_) ∨
    ∃ rec_, s.slot t r = some rec_ ∧ Restamps s txn commitTs ws t r rec_ ∧
      s'.slot t r = some (stamped commitTs rec_)
  occupied : ∀ t r, s'.occupied t r = s.occupied t r
  hasPage : ∀ t p, s.hasPage t p → s'.hasPage t p
  recordSize : ∀ t, (s'.fhs t).map (·.recordSize) = (s.fhs t).map (·.recordSize)

private theorem restamp_spec (txn : Transaction) (commitTs : ℤ) (w : WriteRecord) :
    Restamped s (s.restamp txn commitTs w) txn commitTs [w] := by
  unfold restamp
  cases hfh : s.fhs w.tabName with
  | none =>
    refine ⟨fun t r => .inl ⟨rfl, fun rec_ hrec hst => ?_⟩, fun _ _ => rfl, fun _ _ h => h, fun _ => rfl⟩
    obtain ⟨⟨w', hw', ht, -⟩, -⟩ := hst
    rw [List.mem_singleton.mp hw'] at ht
    simp [Store.slot, ← ht, hfh] at hrec
  | some fh =>
    dsimp only
    split
    · rename_i hcond
      let rec_ := stamped commitTs (fh.record w.rid)
      have hput : Put s { s with fhs := Function.update s.fhs w.tabName (some (fh.updateRecord w.rid rec_)) }
          w.tabName w.rid rec_ (fh.isRecord w.rid) := put_of_wrote hfh
        (RmFileHandle.updateRecord_wrote (RmFileHandle.isRecord_iff.mp hcond.1).1) rfl
      refine ⟨fun t r => ?_, fun t r => ?_, hput.hasPage, hput.recordSize⟩
      · by_cases hat : t = w.tabName ∧ r = w.rid
        · obtain ⟨rfl, rfl⟩ := hat
          exact .inr ⟨_, slot_eq hfh, ⟨⟨w, List.mem_cons_self, rfl, rfl⟩,
            (occupied_eq hfh).trans hcond.1, hcond.2⟩, hput.slot_self⟩
        · refine .inl ⟨hput.slot_ne hat, fun rec_ _ hst => hat ?_⟩
          obtain ⟨⟨w', hw', ht, hr⟩, -⟩ := hst
          rw [List.mem_singleton.mp hw'] at ht hr
          exact ⟨ht.symm, hr.symm⟩
      · refine (hput.occupied t r).trans ?_
        split
        · rename_i hat
          rw [hat.1, hat.2, occupied_eq hfh]
        · rfl
    · rename_i hcond
      refine ⟨fun t r => .inl ⟨rfl, fun rec_ hrec hst => hcond ?_⟩, fun _ _ => rfl, fun _ _ h => h,
        fun _ => rfl⟩
      obtain ⟨⟨w', hw', ht, hr⟩, hocc, hts⟩ := hst
      rw [List.mem_singleton.mp hw'] at ht hr
      subst ht hr
      rw [slot_eq hfh] at hrec
      cases hrec
      exact ⟨(occupied_eq hfh).symm.trans hocc, hts⟩

private theorem Restamped.cons {w : WriteRecord} {ws : List WriteRecord} {commitTs : ℤ}
    (h : Restamped s s' txn commitTs [w]) (h' : Restamped s' s'' txn commitTs ws) :
    Restamped s s'' txn commitTs (w :: ws) := by
  refine ⟨fun t r => ?_, fun t r => (h'.occupied t r).trans (h.occupied t r),
    fun t p hp => h'.hasPage t p (h.hasPage t p hp), fun t => (h'.recordSize t).trans (h.recordSize t)⟩
  rcases h.slot t r with ⟨hsame, hnot⟩ | ⟨rec_, hrec, hst, hnew⟩
  · rcases h'.slot t r with ⟨hsame', hnot'⟩ | ⟨rec_, hrec, hst, hnew⟩
    · refine .inl ⟨hsame'.trans hsame, fun rec_ hrec hst => ?_⟩
      obtain ⟨⟨w', hw', hat⟩, hocc, hts⟩ := hst
      rcases List.mem_cons.mp hw' with rfl | hw'
      · exact hnot rec_ hrec ⟨⟨w', List.mem_cons_self, hat⟩, hocc, hts⟩
      · exact hnot' rec_ (hsame.trans hrec) ⟨⟨w', hw', hat⟩, (h.occupied t r).trans hocc, hts⟩
    · obtain ⟨⟨w', hw', hat⟩, hocc, hts⟩ := hst
      exact .inr ⟨rec_, hsame.symm.trans hrec, ⟨⟨w', List.mem_cons_of_mem w hw', hat⟩,
        (h.occupied t r).symm.trans hocc, hts⟩, hnew⟩
  · -- Once restamped, the record no longer carries the start timestamp.
    have hdone : s''.slot t r = s'.slot t r := by
      rcases h'.slot t r with ⟨hsame', -⟩ | ⟨rec', hrec', hst', -⟩
      · exact hsame'
      · rw [hnew] at hrec'
        cases hrec'
        have hts := hst'.2.2.1
        have hlt := hst'.2.2.2
        simp only [stamped] at hts
        exact absurd hts hlt.ne'
    obtain ⟨⟨w', hw', hat⟩, hrest⟩ := hst
    exact .inr ⟨rec_, hrec, ⟨⟨w, List.mem_cons_self, List.mem_singleton.mp hw' ▸ hat⟩, hrest⟩,
      hdone.trans hnew⟩

private theorem foldl_restamp (txn : Transaction) (commitTs : ℤ) (ws : List WriteRecord) :
    Restamped s (ws.foldl (fun s w => s.restamp txn commitTs w) s) txn commitTs ws := by
  induction ws generalizing s with
  | nil =>
    refine ⟨fun t r => .inl ⟨rfl, fun _ _ hst => ?_⟩, fun _ _ => rfl, fun _ _ h => h, fun _ => rfl⟩
    obtain ⟨w, hw, -⟩ := hst.1
    cases hw
  | cons w ws ih => exact (restamp_spec txn commitTs w).cons ih

private theorem restamp_other (txn : Transaction) (commitTs : ℤ) (w : WriteRecord) :
    (s.restamp txn commitTs w).txnMgr = s.txnMgr ∧ (s.restamp txn commitTs w).history = s.history := by
  unfold restamp
  split
  · exact ⟨rfl, rfl⟩
  · dsimp only
    split <;> exact ⟨rfl, rfl⟩

private theorem foldl_restamp_other (txn : Transaction) (commitTs : ℤ) (ws : List WriteRecord) :
    (ws.foldl (fun s w => s.restamp txn commitTs w) s).txnMgr = s.txnMgr ∧
      (ws.foldl (fun s w => s.restamp txn commitTs w) s).history = s.history := by
  induction ws generalizing s with
  | nil => exact ⟨rfl, rfl⟩
  | cons w ws ih =>
    have h := restamp_other (s := s) txn commitTs w
    have h' := ih (s := s.restamp txn commitTs w)
    exact ⟨h'.1.trans h.1, h'.2.trans h.2⟩

theorem commit_txnMgr : (s.commit txn).txnMgr = s.txnMgr.commitTxn txn := by
  simp only [commit, updateCommitTimestamp, (foldl_restamp_other txn _ txn.writeSet).1]
  rfl

theorem commit_history : (s.commit txn).history = s.history := by
  simp only [commit, updateCommitTimestamp, (foldl_restamp_other txn _ txn.writeSet).2]

theorem commit_restamped :
    Restamped s (s.commit txn) txn s.txnMgr.nextTimestamp txn.writeSet := by
  have h := foldl_restamp (s := { s with
    txnMgr := ({ s.txnMgr with nextTimestamp := s.txnMgr.nextTimestamp + 1 }.stampCommit txn.txnId
      s.txnMgr.nextTimestamp) }) txn s.txnMgr.nextTimestamp txn.writeSet
  exact ⟨h.slot, h.occupied, h.hasPage, h.recordSize⟩

theorem commit_slot (s : Store) (txn : Transaction) (t : String) (r : Rid) :
    (s.commit txn).slot t r = s.slot t r ∧ (∀ rec_, s.slot t r = some rec_ →
        ¬Restamps s txn s.txnMgr.nextTimestamp txn.writeSet t r rec_) ∨
      ∃ rec_, s.slot t r = some rec_ ∧
        Restamps s txn s.txnMgr.nextTimestamp txn.writeSet t r rec_ ∧
        (s.commit txn).slot t r = some (stamped s.txnMgr.nextTimestamp rec_) :=
  commit_restamped.slot t r

/-! ### Rollback -/

theorem rollbackOne_eq {txnId : ℤ} (h : s.rollbackOne txnId = some s') :
    ∃ cur w fh, s.txnMgr.getTransaction txnId = some cur ∧ cur.writeSet.getLast? = some w ∧
      s.fhs w.tabName = some fh ∧
      s'.txnMgr = (s.txnMgr.modifyTxn txnId fun txn => { txn with writeSet := txn.writeSet.dropLast }) ∧
      s'.fhs = Function.update s.fhs w.tabName (some (undoWrite w fh)) ∧
      s'.history = ⟨txnId, w.tabName, w.rid, .undo, (undoWrite w fh).record w.rid⟩ :: s.history := by
  simp only [rollbackOne, Option.bind_eq_bind, Option.bind_eq_some_iff, Option.pure_def,
    Option.some.injEq] at h
  obtain ⟨cur, hcur, w, hw, fh, hfh, rfl⟩ := h
  exact ⟨cur, w, fh, hcur, hw, hfh, rfl, rfl, rfl⟩

theorem rollbackOne_inert {txnId : ℤ} (h : s.rollbackOne txnId = some s') :
    s.txnMgr.Inert s'.txnMgr := by
  obtain ⟨-, -, -, -, -, -, htm, -⟩ := rollbackOne_eq h
  rw [htm]
  exact .modifyTxn (f := fun txn => { txn with writeSet := txn.writeSet.dropLast })
    fun _ => ⟨rfl, rfl, rfl, rfl⟩

theorem rollbackAll_inert {txnId : ℤ} {n : ℕ} (h : rollbackAll txnId n s = some s') :
    s.txnMgr.Inert s'.txnMgr := by
  induction n generalizing s with
  | zero =>
    cases h
    exact .refl _
  | succ n ih =>
    simp only [rollbackAll, Option.bind_eq_some_iff] at h
    obtain ⟨s₁, hone, hall⟩ := h
    exact (rollbackOne_inert hone).trans (ih hall)

/-- Entries that updates and deletions make, for pages that exist. -/
def Undoable (s : Store) (ws : List WriteRecord) : Prop :=
  ∀ w ∈ ws, w.wtype ≠ .insertTuple ∧ s.hasPage w.tabName w.rid.pageNo

theorem undoWrite_put {w : WriteRecord} (h : s.fhs w.tabName = some fh)
    (hw : w.wtype ≠ .insertTuple ∧ s.hasPage w.tabName w.rid.pageNo)
    (hfhs : s'.fhs = Function.update s.fhs w.tabName (some (undoWrite w fh))) :
    Put s s' w.tabName w.rid w.record
      (if w.wtype = .deleteTuple then true else s.occupied w.tabName w.rid) := by
  have hpage := (hasPage_iff h).mp hw.2
  rw [occupied_eq h]
  cases hwtype : w.wtype with
  | insertTuple => exact absurd hwtype hw.1
  | deleteTuple =>
    refine put_of_wrote h ?_ hfhs
    simp only [undoWrite, hwtype]
    exact RmFileHandle.insertRecordAt_wrote
      (RmFileHandle.createNewPageHandle_hasPage.mpr (.inl hpage))
  | updateTuple =>
    refine put_of_wrote h ?_ hfhs
    simp only [undoWrite, hwtype]
    exact RmFileHandle.updateRecord_wrote hpage

/-- A rollback leaves the other slots alone, whatever has become of the table. -/
theorem undoWrite_ne {w : WriteRecord} (hr : r ≠ w.rid) :
    (undoWrite w fh).record r = fh.record r ∧ (undoWrite w fh).isRecord r = fh.isRecord r := by
  have of_wrote : ∀ {fh' rec_ used}, fh.Wrote fh' w.rid rec_ used →
      fh'.record r = fh.record r ∧ fh'.isRecord r = fh.isRecord r :=
    fun hw => by rw [hw.record, hw.isRecord, Function.update_of_ne hr, Function.update_of_ne hr]; exact ⟨rfl, rfl⟩
  unfold undoWrite
  cases w.wtype with
  | insertTuple =>
    cases hocc : fh.isRecord w.rid with
    | true => exact of_wrote (RmFileHandle.deleteRecord_wrote hocc)
    | false => simp [RmFileHandle.deleteRecord, hocc]
  | deleteTuple =>
    by_cases hpage : fh.createNewPageHandle.2.hasPage w.rid.pageNo
    · exact of_wrote (RmFileHandle.insertRecordAt_wrote hpage)
    · have hsame := fh.createNewPageHandle_same
      simp only [RmFileHandle.insertRecordAt, hpage, if_false, hsame.record, hsame.isRecord, and_self]
  | updateTuple =>
    by_cases hpage : fh.hasPage w.rid.pageNo
    · exact of_wrote (RmFileHandle.updateRecord_wrote hpage)
    · simp only [RmFileHandle.updateRecord, hpage, if_false, and_self]

theorem rollbackOne_slot_ne {txnId : ℤ} {cur : Transaction} {w : WriteRecord}
    (h : s.rollbackOne txnId = some s') (hcur : s.txnMgr.getTransaction txnId = some cur)
    (hw : cur.writeSet.getLast? = some w) (hne : ¬(t = w.tabName ∧ r = w.rid)) :
    s'.slot t r = s.slot t r := by
  obtain ⟨cur', w', fh, hcur', hw', hfh, -, hfhs, -⟩ := rollbackOne_eq h
  obtain rfl : cur' = cur := Option.some.inj (hcur'.symm.trans hcur)
  obtain rfl : w' = w := Option.some.inj (hw'.symm.trans hw)
  simp only [Store.slot, update_fhs hfhs]
  by_cases ht : t = w'.tabName
  · have hr : r ≠ w'.rid := fun hr => hne ⟨ht, hr⟩
    simp only [ht, if_true, hfh, Option.map_some, (undoWrite_ne hr).1]
  · simp only [ht, if_false]

/-- The writes `ws` of a transaction were taken back, the last one first. -/
structure RolledBack (s s' : Store) (txnId : ℤ) (ws : List WriteRecord) : Prop where
  slot : ∀ t r, s'.slot t r =
    match ws.find? (·.isAt t r) with
    | some w => some w.record
    | none => s.slot t r
  occupied : ∀ t r, s.occupied t r = true → s'.occupied t r = true
  occupied_other : ∀ t r, (∀ w ∈ ws, w.isAt t r = false) → s'.occupied t r = s.occupied t r
  hasPage : ∀ t p, s.hasPage t p → s'.hasPage t p
  recordSize : ∀ t, (s'.fhs t).map (·.recordSize) = (s.fhs t).map (·.recordSize)
  history : ∃ es, s'.history = es ++ s.history ∧
    ∀ e ∈ es, e.txnId = txnId ∧ e.kind = .undo ∧ ∃ w ∈ ws, w.isAt e.tab e.rid = true
  undone : ∀ w ∈ ws, ∃ e, s'.lastWrite w.tabName w.rid = some e ∧ e.txnId = txnId ∧ e.kind = .undo

private theorem RolledBack.nil (s : Store) (txnId : ℤ) : RolledBack s s txnId [] where
  slot _ _ := rfl
  occupied _ _ h := h
  occupied_other _ _ _ := rfl
  hasPage _ _ h := h
  recordSize _ := rfl
  history := ⟨[], rfl, fun _ h => by cases h⟩
  undone _ h := by cases h

private theorem RolledBack.snoc {txnId : ℤ} {ws : List WriteRecord} {w : WriteRecord} {used : Bool}
    {rec' : RmRecord} (hput : Put s s' w.tabName w.rid w.record used)
    (hused : s.occupied w.tabName w.rid = true → used = true)
    (hhist : s'.history = ⟨txnId, w.tabName, w.rid, .undo, rec'⟩ :: s.history)
    (h : RolledBack s' s'' txnId ws) : RolledBack s s'' txnId (ws ++ [w]) := by
  have hat : ∀ t r, w.isAt t r = false → ¬(t = w.tabName ∧ r = w.rid) := by
    rintro t r hne ⟨rfl, rfl⟩
    simp [WriteRecord.isAt] at hne
  refine ⟨fun t r => ?_, fun t r hocc => h.occupied t r ?_, fun t r hother => ?_,
    fun t p hp => h.hasPage t p (hput.hasPage t p hp),
    fun t => (h.recordSize t).trans (hput.recordSize t), ?_, ?_⟩
  · rw [h.slot, List.find?_append]
    cases hfind : ws.find? (·.isAt t r) with
    | some w' => rfl
    | none =>
      cases hw : w.isAt t r with
      | true =>
        obtain ⟨rfl, rfl⟩ := WriteRecord.isAt_iff.mp hw
        simp [hw, hput.slot_self]
      | false => simp [hw, hput.slot_ne (hat t r hw)]
  · rw [hput.occupied]
    split
    · rename_i hself
      rw [hself.1, hself.2] at hocc
      exact hused hocc
    · exact hocc
  · have hw := hother w (by simp)
    rw [h.occupied_other t r fun w' hw' => hother w' (by simp [hw']), hput.occupied,
      if_neg (hat t r hw)]
  · obtain ⟨es, hes, hall⟩ := h.history
    refine ⟨es ++ [⟨txnId, w.tabName, w.rid, .undo, rec'⟩], by simp [hes, hhist], fun e he => ?_⟩
    rcases List.mem_append.mp he with he | he
    · obtain ⟨hid, hkind, w', hw', hat'⟩ := hall e he
      exact ⟨hid, hkind, w', by simp [hw'], hat'⟩
    · rw [List.mem_singleton.mp he]
      exact ⟨rfl, rfl, w, by simp, by simp⟩
  · intro w' hw'
    rcases List.mem_append.mp hw' with hw' | hw'
    · exact h.undone w' hw'
    · rw [List.mem_singleton.mp hw']
      -- Later rounds may have gone to the same slot.
      obtain ⟨es, hes, hall⟩ := h.history
      cases hfind : es.find? (·.isAt w.tabName w.rid) with
      | some e =>
        have he := hall e (List.mem_of_find?_eq_some hfind)
        exact ⟨e, by simp [lastWrite, hes, hfind], he.1, he.2.1⟩
      | none =>
        refine ⟨⟨txnId, w.tabName, w.rid, .undo, rec'⟩, ?_, rfl, rfl⟩
        simp [lastWrite, hes, hfind, hhist]

/-- The last write is undone first. -/
theorem rollbackAll_append {txnId : ℤ} {ws : List WriteRecord} {w : WriteRecord} {cur : Transaction}
    (hcur : s.txnMgr.getTransaction txnId = some cur) (hws : cur.writeSet = ws ++ [w])
    (h : rollbackAll txnId (ws ++ [w]).length s = some s') :
    ∃ s₁ fh, s.fhs w.tabName = some fh ∧ s₁.fhs = Function.update s.fhs w.tabName (some (undoWrite w fh)) ∧
      s₁.history = ⟨txnId, w.tabName, w.rid, .undo, (undoWrite w fh).record w.rid⟩ :: s.history ∧
      s₁.txnMgr.getTransaction txnId = some { cur with writeSet := ws } ∧ rollbackAll txnId ws.length s₁ = some s' := by
  simp only [List.length_append, List.length_singleton, rollbackAll, Option.bind_eq_some_iff] at h
  obtain ⟨s₁, hone, hall⟩ := h
  obtain ⟨cur', w', fh, hcur', hw', hfh, htm, hfhs, hhist⟩ := rollbackOne_eq hone
  obtain rfl : cur' = cur := Option.some.inj (hcur'.symm.trans hcur)
  obtain rfl : w' = w := by
    rw [hws, List.getLast?_append] at hw'
    simpa using hw'.symm
  refine ⟨s₁, fh, hfh, hfhs, hhist, ?_, hall⟩
  rw [htm, TransactionManager.getTransaction_modifyTxn_ite, if_pos rfl, hcur]
  · simp [hws]
  · exact fun _ => rfl

theorem rollbackAll_rolledBack {txnId : ℤ} {ws : List WriteRecord} {cur : Transaction}
    (hcur : s.txnMgr.getTransaction txnId = some cur) (hws : cur.writeSet = ws)
    (hundo : s.Undoable ws) (h : rollbackAll txnId ws.length s = some s') :
    RolledBack s s' txnId ws := by
  induction ws using List.reverseRecOn generalizing s cur with
  | nil =>
    obtain rfl : s = s' := Option.some.inj h
    exact .nil s txnId
  | append_singleton ws w ih =>
    obtain ⟨s₁, fh, hfh, hfhs, hhist, hcur₁, hall⟩ := rollbackAll_append hcur hws h
    have hput := undoWrite_put hfh (hundo w (by simp)) hfhs
    refine RolledBack.snoc hput (fun hocc => ?_) hhist (ih hcur₁ rfl (fun w hw => ?_) hall)
    · rw [hocc, ite_self]
    · have := hundo w (by simp [hw])
      exact ⟨this.1, hput.hasPage _ _ this.2⟩

theorem rollbackAll_txnMgr {txnId : ℤ} {n : ℕ} (h : rollbackAll txnId n s = some s') :
    s'.txnMgr = s.txnMgr.modifyTxn txnId fun txn =>
      { txn with writeSet := txn.writeSet.take (txn.writeSet.length - n) } := by
  induction n generalizing s with
  | zero =>
    cases h
    simp [TransactionManager.modifyTxn]
  | succ n ih =>
    simp only [rollbackAll, Option.bind_eq_some_iff] at h
    obtain ⟨s₁, hone, hall⟩ := h
    obtain ⟨-, -, -, -, -, -, htm, -, -⟩ := rollbackOne_eq hone
    rw [ih hall, htm]
    simp only [TransactionManager.modifyTxn, List.map_map]
    congr 2
    funext txn
    by_cases hid : txn.txnId = txnId
    · simp only [hid, if_true, Function.comp_apply, List.length_dropLast]
      congr 1
      rw [List.dropLast_eq_take, List.take_take, Nat.sub_sub, Nat.add_comm 1 n,
        Nat.min_eq_left (by omega)]
    · simp [hid]

/-- All that an abort does to the store. -/
theorem abort_spec {cur : Transaction} (hcur : s.txnMgr.getTransaction cur.txnId = some cur)
    (hundo : s.Undoable cur.writeSet) (h : s.abort cur = some s') :
    RolledBack s s' cur.txnId cur.writeSet ∧
      s'.txnMgr = (s.txnMgr.markAborted cur.txnId cur.startTs).modifyTxn cur.txnId fun txn =>
        { txn with writeSet := txn.writeSet.take (txn.writeSet.length - cur.writeSet.length) } := by
  have hget : (s.markAborted cur).txnMgr.getTransaction cur.txnId =
      some { cur with state := .aborted } := by
    change (s.txnMgr.modifyTxn cur.txnId fun txn => { txn with state := .aborted }).getTransaction
      cur.txnId = _
    rw [TransactionManager.getTransaction_modifyTxn_ite, if_pos rfl, hcur]
    · rfl
    · exact fun _ => rfl
  have hrolled := rollbackAll_rolledBack hget rfl hundo h
  exact ⟨⟨hrolled.slot, hrolled.occupied, hrolled.occupied_other, hrolled.hasPage,
    hrolled.recordSize, hrolled.history, hrolled.undone⟩, rollbackAll_txnMgr h⟩

end Store
end Rmdb
