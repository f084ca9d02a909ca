import Rmdb.Transaction.Effects

/-! When `get_record_mvcc` serves the record in the slot itself, and when the conflict check
stops a writer. -/
namespace Rmdb
namespace Store

variable {s : Store} {tab : String} {rid : Rid} {fh : RmFileHandle} {rec_ : RmRecord} {startTs : ℤ}

/-- Only a slot of a page that exists has ever been written. -/
theorem hasPage_of_writer (hslot : s.slot tab rid = some rec_) (hwriter : rec_.writer ≠ invalidTxnId) :
    s.hasPage tab rid.pageNo := by
  unfold slot at hslot
  obtain ⟨fh, hfh, rfl⟩ := Option.map_eq_some_iff.mp hslot
  refine ⟨fh, hfh, ?_⟩
  by_contra hpage
  apply hwriter
  simp [RmFileHandle.record, hpage, zeroRecord]

theorem hasTupleMeta_of_lt {m : TupleMeta} (h₀ : 0 ≤ m.ts) (h : m.ts < s.txnMgr.nextTimestamp) :
    s.txnMgr.hasTupleMeta m = true := by
  simp only [TransactionManager.hasTupleMeta, Bool.or_eq_true, Bool.and_eq_true, decide_eq_true_eq]
  omega

/-- A version that is initial, one's own or committed before the start is served as it is. -/
theorem read_current (hslot : s.slot tab rid = some rec_) (hpage : s.hasPage tab rid.pageNo)
    (hrid : 0 ≤ rid.slotNo) (hmeta : s.txnMgr.hasTupleMeta rec_.tupleMeta = true)
    (hvisible : rec_.tupleMeta.ts = 0 ∨ rec_.tupleMeta.ts = startTs ∨
      s.txnMgr.isCommittedBeforeReadTs rec_.tupleMeta.ts startTs = true) :
    s.getRecordMvcc tab startTs rid =
      .ok (if rec_.tupleMeta.isDeleted then none else some ⟨none, rec_.row⟩) := by
  unfold slot at hslot
  obtain ⟨fh, hfh, rfl⟩ := Option.map_eq_some_iff.mp hslot
  have hpage := (hasPage_iff hfh).mp hpage
  simp only [getRecordMvcc, hfh, RmFileHandle.getRecordMvcc, if_neg (not_lt.mpr hrid), hpage, not_true_eq_false,
    if_false, if_true, TransactionManager.effectiveMeta, hmeta]
  generalize fh.record rid = raw at hvisible ⊢
  by_cases hzero : raw.tupleMeta.ts = 0
  · simp only [hzero, if_true]
    cases raw.tupleMeta.isDeleted <;> rfl
  · simp only [hzero, if_false]
    by_cases hown : raw.tupleMeta.ts = startTs
    · simp only [hown, if_true]
      cases raw.tupleMeta.isDeleted <;> rfl
    · have hcommitted := (hvisible.resolve_left hzero).resolve_left hown
      have hlt : raw.tupleMeta.ts < startTs := by
        by_contra hge
        simp [TransactionManager.isCommittedBeforeReadTs, hzero, not_lt.mp hge] at hcommitted
      simp only [hown, if_false, hlt, if_true, hcommitted]
      cases raw.tupleMeta.isDeleted <;> rfl

/-- Nobody else can overwrite the version of an active transaction. -/
theorem conflict_of_active {txn owner : Transaction} (hids : s.txnMgr.Ids)
    (hpage : fh.hasPage rid.pageNo) (howner : owner ∈ s.txnMgr.txnMap)
    (hactive : owner.isActive = true) (hne : owner.txnId ≠ txn.txnId)
    (hstart : owner.startTs ≠ txn.startTs) (hpos : 1 ≤ owner.startTs)
    (hts : (fh.record rid).tupleMeta.ts = owner.startTs) :
    fh.checkWriteWriteConflict s.txnMgr txn rid = true := by
  have hmeta : s.txnMgr.hasTupleMeta (fh.record rid).tupleMeta = true := by
    apply hasTupleMeta_of_lt
    · omega
    · rw [hts]
      exact hids.start_lt owner howner
  have hzero : owner.startTs ≠ 0 := by omega
  have hother : (some owner).filter (·.txnId ≠ txn.txnId) = some owner := by
    simp [Option.filter, hne]
  simp only [RmFileHandle.checkWriteWriteConflict, hpage, if_true, TransactionManager.effectiveMeta,
    hmeta, hts, hzero, if_false, hstart, hids.getTransactionByTimestamp howner]
  split
  · rfl
  · simp only [hother, hactive, if_true]

end Store

namespace TransactionManager

variable {tm : TransactionManager} {txn : Transaction} {startTs : ℤ}

theorem Inv.not_aborted_of_active (h : tm.Inv) (htxn : txn ∈ tm.txnMap)
    (hstate : txn.state ≠ .aborted) : txn.startTs ∉ tm.abortedTxns := by
  intro hmem
  obtain ⟨other, hother, hst, hts⟩ := (h.abortedTxns _).mp hmem
  rw [h.start_inj other hother txn htxn hts] at hst
  exact hstate hst

theorem Inv.commitTs_not_aborted (h : tm.Inv) (htxn : txn ∈ tm.txnMap)
    (hstate : txn.state = .committed) : txn.commitTs ∉ tm.abortedTxns := by
  intro hmem
  obtain ⟨other, hother, -, hts⟩ := (h.abortedTxns _).mp hmem
  exact h.commit_ne_start txn htxn other hother hstate hts.symm

/-- Both stamps of a committed transaction are visible to whoever starts after its commit. -/
theorem Inv.committedBefore (h : tm.Inv) (htxn : txn ∈ tm.txnMap) (hstate : txn.state = .committed)
    (hstart : txn.commitTs < startTs) :
    tm.isCommittedBeforeReadTs txn.startTs startTs = true ∧
      tm.isCommittedBeforeReadTs txn.commitTs startTs = true := by
  have hcommit := h.committed txn htxn hstate
  have habort := h.not_aborted_of_active htxn (by simp [hstate])
  constructor
  · have hlt : ¬startTs ≤ txn.startTs := by omega
    simp only [isCommittedBeforeReadTs, hlt, if_false, isTransactionAborted, habort, decide_false,
      Bool.false_eq_true, h.getTransactionByTimestamp htxn, hstate, decide_true]
    split
    · rfl
    · split <;> rfl
  · have hlt : ¬startTs ≤ txn.commitTs := by omega
    simp only [isCommittedBeforeReadTs, hlt, if_false, isTransactionAborted,
      h.commitTs_not_aborted htxn hstate, decide_false, Bool.false_eq_true, hcommit.2.2, if_true,
      ite_self]

/-- What a writer that passes the conflict check has found in the header of the slot. -/
theorem Ids.noConflict_cases {cur : Transaction} {fh : RmFileHandle} {rid : Rid} (h : tm.Ids)
    (hpage : fh.hasPage rid.pageNo) (hmeta : tm.hasTupleMeta (fh.record rid).tupleMeta = true)
    (hcur : cur ∈ tm.txnMap) (hid : cur.txnId = txn.txnId) (hstart : cur.startTs = txn.startTs)
    (hcheck : fh.checkWriteWriteConflict tm txn rid = false) :
    let ts := (fh.record rid).tupleMeta.ts
    ts = 0 ∨ ts = txn.startTs ∨ (∃ owner ∈ tm.txnMap, owner.startTs = ts ∧ owner.state = .aborted) ∨
      (∃ owner ∈ tm.txnMap, owner.startTs = ts ∧ owner.state = .committed ∧
        if tm.isCommitted ts then owner.commitTs ≤ txn.startTs else ts ≤ txn.startTs) ∨
      (∀ owner ∈ tm.txnMap, owner.startTs ≠ ts) ∧ ts ≤ txn.startTs := by
  intro ts
  by_cases hzero : ts = 0
  · exact .inl hzero
  by_cases hown : ts = txn.startTs
  · exact .inr (.inl hown)
  refine .inr (.inr ?_)
  simp only [RmFileHandle.checkWriteWriteConflict, hpage, if_true, effectiveMeta, hmeta] at hcheck
  change (if ts = 0 then false else _) = false at hcheck
  rw [if_neg hzero, if_neg hown] at hcheck
  split at hcheck
  · cases hcheck
  cases hget : tm.getTransactionByTimestamp ts with
  | none =>
    rw [hget] at hcheck
    refine .inr (.inr ⟨getTransactionByTimestamp_eq_none.mp hget, ?_⟩)
    cases hcom : tm.isCommitted ts <;> simpa [hcom] using hcheck
  | some owner =>
    obtain ⟨howner, hts⟩ := mem_of_getTransactionByTimestamp hget
    have hne : owner.txnId ≠ txn.txnId := by
      intro heq
      rw [h.id_inj owner howner cur hcur (heq.trans hid.symm), hstart] at hts
      exact hown hts.symm
    have hother : (some owner).filter (·.txnId ≠ txn.txnId) = some owner := by
      simp [Option.filter, hne]
    rw [hget, hother] at hcheck
    dsimp only at hcheck
    cases hstate : owner.state with
    | aborted => exact .inl ⟨owner, howner, hts, hstate⟩
    | committed =>
      refine .inr (.inl ⟨owner, howner, hts, hstate, ?_⟩)
      change if tm.isCommitted (fh.record rid).tupleMeta.ts then _ else (fh.record rid).tupleMeta.ts ≤ txn.startTs
      cases hcom : tm.isCommitted (fh.record rid).tupleMeta.ts <;>
        simpa [hcom, Transaction.isActive, hstate] using hcheck
    | default => simp [Transaction.isActive, hstate] at hcheck
    | growing => simp [Transaction.isActive, hstate] at hcheck
    | shrinking => simp [Transaction.isActive, hstate] at hcheck

/-- A committed owner counts as committed as long as no garbage has been collected. -/
theorem Inv.noConflict_cases {cur : Transaction} {fh : RmFileHandle} {rid : Rid} (h : tm.Inv)
    (hpage : fh.hasPage rid.pageNo) (hmeta : tm.hasTupleMeta (fh.record rid).tupleMeta = true)
    (hcur : cur ∈ tm.txnMap) (hid : cur.txnId = txn.txnId) (hstart : cur.startTs = txn.startTs)
    (hcheck : fh.checkWriteWriteConflict tm txn rid = false) :
    let ts := (fh.record rid).tupleMeta.ts
    ts = 0 ∨ ts = txn.startTs ∨ (∃ owner ∈ tm.txnMap, owner.startTs = ts ∧ owner.state = .aborted) ∨
      (∃ owner ∈ tm.txnMap, owner.startTs = ts ∧ owner.state = .committed ∧
        owner.commitTs ≤ txn.startTs) ∨
      (∀ owner ∈ tm.txnMap, owner.startTs ≠ ts) ∧ ts ≤ txn.startTs := by
  intro ts
  rcases h.toIds.noConflict_cases hpage hmeta hcur hid hstart hcheck with
    hzero | hown | haborted | ⟨owner, howner, hts, hstate, hlate⟩ | hnone
  · exact .inl hzero
  · exact .inr (.inl hown)
  · exact .inr (.inr (.inl haborted))
  · refine .inr (.inr (.inr (.inl ⟨owner, howner, hts, hstate, ?_⟩)))
    have habort := h.not_aborted_of_active howner (by simp [hstate])
    have hcom : tm.isCommitted owner.startTs = true := by
      unfold isCommitted
      simp [isTransactionAborted, habort, h.getTransactionByTimestamp howner, hstate]
    rw [← hts, hcom] at hlate
    exact hlate
  · exact .inr (.inr (.inr (.inr hnone)))

end TransactionManager
end Rmdb
