import Rmdb.System.GarbageCollection

/-! The two checks for write-write conflicts, and when they say the same. -/
namespace Rmdb

open Database

namespace TransactionManager

/-- `IsWriteWriteConflict`, which knows the timestamp of a row and the active transactions. -/
def isWriteWriteConflict (tm : TransactionManager) (tupleTs : ℤ) (txn : Transaction) : Bool :=
  if tupleTs = -1 ∨ tupleTs = 0 then false
  else if tupleTs = txn.startTs then false
  else if (tm.txnMap.filter (·.isActive)).any (·.startTs = tupleTs) then true
  else decide (txn.startTs < tupleTs)

variable {tm tm' : TransactionManager} {txn owner : Transaction} {ts : ℤ}

/-! ### What timestamps and states say of each other -/

structure Settled (tm : TransactionManager) : Prop extends tm.Ids where
  nonneg : 0 ≤ tm.nextTimestamp
  start_nonneg : ∀ txn ∈ tm.txnMap, 0 ≤ txn.startTs
  committed : ∀ txn ∈ tm.txnMap, txn.state = .committed → txn.startTs < txn.commitTs
  aborted : ∀ ts ∈ tm.abortedTxns, ts < tm.nextTimestamp ∧ ∀ txn ∈ tm.txnMap, txn.startTs = ts → txn.state = .aborted

theorem settled_init {n : ℤ} (hn : 0 ≤ n) : (init n).Settled where
  toIds := (inv_init n).toIds
  nonneg := hn
  start_nonneg _ h := by cases h
  committed _ h := by cases h
  aborted _ h := by cases h

/-- What a step of the server does to the transaction manager. -/
inductive Moved (tm : TransactionManager) : TransactionManager → Prop
  | begin : Moved tm tm.begin.2
  | inert {tm' : TransactionManager} (h : tm.Inert tm') : Moved tm tm'
  | commit {txn : Transaction} (hmem : txn ∈ tm.txnMap) (hactive : txn.isActive = true) : Moved tm (tm.commitTxn txn)
  | abort {txn : Transaction} {tm' : TransactionManager} (hmem : txn ∈ tm.txnMap) (hactive : txn.isActive = true)
    (h : (tm.markAborted txn.txnId txn.startTs).Inert tm') : Moved tm tm'
  | collect : Moved tm tm.garbageCollection

theorem Settled.begin (h : tm.Settled) : tm.begin.2.Settled where
  toIds := h.toIds.begin
  nonneg := h.nonneg.trans (Int.le_add_one le_rfl)
  start_nonneg new hnew := by
    cases mem_begin.mp hnew with
    | inl hold => exact h.start_nonneg new hold
    | inr heq =>
      rw [heq]
      exact h.nonneg
  committed new hnew hstate := by
    cases mem_begin.mp hnew with
    | inl hold => exact h.committed new hold hstate
    | inr heq =>
      rw [heq] at hstate
      cases hstate
  aborted ts hts := by
    obtain ⟨hlt, hall⟩ := h.aborted ts hts
    refine ⟨hlt.trans (Int.lt_succ _), fun new hnew hstart => ?_⟩
    cases mem_begin.mp hnew with
    | inl hold => exact hall new hold hstart
    | inr heq =>
      rw [heq] at hstart
      exact absurd hstart hlt.ne'

theorem Settled.inert (h : tm.Settled) (hinert : tm.Inert tm') : tm'.Settled where
  toIds := hinert.ids h.toIds
  nonneg := by
    rw [hinert.nextTimestamp]
    exact h.nonneg
  start_nonneg new hnew := by
    obtain ⟨old, hold, -, hstart, -⟩ := hinert.mem hnew
    rw [hstart]
    exact h.start_nonneg old hold
  committed new hnew hstate := by
    obtain ⟨old, hold, -, hstart, hst, hcommit⟩ := hinert.mem hnew
    rw [hstart, hcommit]
    exact h.committed old hold (hst.symm.trans hstate)
  aborted ts hts := by
    rw [hinert.abortedTxns] at hts
    obtain ⟨hlt, hall⟩ := h.aborted ts hts
    rw [hinert.nextTimestamp]
    refine ⟨hlt, fun new hnew hstart => ?_⟩
    obtain ⟨old, hold, -, hstart', hst, -⟩ := hinert.mem hnew
    exact hst.trans (hall old hold (hstart'.symm.trans hstart))

theorem Settled.commitTxn (h : tm.Settled) (hmem : txn ∈ tm.txnMap) (hactive : txn.isActive = true) :
    (tm.commitTxn txn).Settled where
  toIds := h.toIds.commitTxn
  nonneg := h.nonneg.trans (Int.le_add_one le_rfl)
  start_nonneg new hnew := by
    obtain ⟨old, hold, ⟨-, rfl⟩ | ⟨-, rfl⟩⟩ := mem_commitTxn hnew
    · exact h.start_nonneg new hold
    · exact h.start_nonneg old hold
  committed new hnew hstate := by
    obtain ⟨old, hold, ⟨-, rfl⟩ | ⟨-, rfl⟩⟩ := mem_commitTxn hnew
    · exact h.committed new hold hstate
    · exact h.start_lt old hold
  aborted ts hts := by
    obtain ⟨hlt, hall⟩ := h.aborted ts hts
    refine ⟨hlt.trans (Int.lt_succ _), fun new hnew hstart => ?_⟩
    obtain ⟨old, hold, ⟨-, rfl⟩ | ⟨hid, rfl⟩⟩ := mem_commitTxn hnew
    · exact hall new hold hstart
    · have hstate := hall old hold hstart
      rw [h.id_inj old hold txn hmem hid] at hstate
      unfold Transaction.isActive at hactive
      rw [hstate] at hactive
      cases hactive

theorem Settled.markAborted (h : tm.Settled) (hmem : txn ∈ tm.txnMap) :
    (tm.markAborted txn.txnId txn.startTs).Settled where
  toIds := h.toIds.markAborted
  nonneg := h.nonneg
  start_nonneg new hnew := by
    obtain ⟨old, hold, ⟨-, rfl⟩ | ⟨-, rfl⟩⟩ := mem_markAborted hnew
    · exact h.start_nonneg new hold
    · exact h.start_nonneg old hold
  committed new hnew hstate := by
    obtain ⟨old, hold, ⟨-, rfl⟩ | ⟨-, rfl⟩⟩ := mem_markAborted hnew
    · exact h.committed new hold hstate
    · cases hstate
  aborted ts hts := by
    cases List.mem_cons.mp hts with
    | inl heq =>
      subst heq
      refine ⟨h.start_lt txn hmem, fun new hnew hstart => ?_⟩
      obtain ⟨old, hold, ⟨hid, rfl⟩ | ⟨-, rfl⟩⟩ := mem_markAborted hnew
      · exact absurd (congrArg Transaction.txnId (h.start_inj new hold txn hmem hstart)) hid
      · rfl
    | inr hts =>
      obtain ⟨hlt, hall⟩ := h.aborted ts hts
      refine ⟨hlt, fun new hnew hstart => ?_⟩
      obtain ⟨old, hold, ⟨-, rfl⟩ | ⟨-, rfl⟩⟩ := mem_markAborted hnew
      · exact hall new hold hstart
      · rfl

theorem Settled.garbageCollection (h : tm.Settled) : tm.garbageCollection.Settled where
  toIds := h.toIds.garbageCollection
  nonneg := h.nonneg
  start_nonneg new hnew := h.start_nonneg new (mem_garbageCollection.mp hnew).1
  committed new hnew := h.committed new (mem_garbageCollection.mp hnew).1
  aborted ts hts := by
    obtain ⟨hlt, hall⟩ := h.aborted ts (List.mem_filter.mp hts).1
    exact ⟨hlt, fun new hnew => hall new (mem_garbageCollection.mp hnew).1⟩

theorem Settled.moved (h : tm.Settled) (hmoved : tm.Moved tm') : tm'.Settled := by
  cases hmoved with
  | begin => exact h.begin
  | inert hinert => exact h.inert hinert
  | commit hmem hactive => exact h.commitTxn hmem hactive
  | abort hmem hactive hinert => exact (h.markAborted hmem).inert hinert
  | collect => exact h.garbageCollection

/-! ### One verdict or two -/

/-- The timestamp in a slot is one on which the checks differ. -/
inductive Disputed (tm : TransactionManager) (txn : Transaction) (ts : ℤ) : Prop
  /-- The first check takes the slot for a row without a header. -/
  | noHeader (hts : tm.nextTimestamp + 1000 < ts)
  /-- The second check does not ask whether the writer has been aborted. -/
  | abortedWriter (habort : txn.state = .aborted) (hpos : 0 < ts) (hlt : ts < txn.startTs)
    (howner : ∀ owner ∈ tm.txnMap, owner.startTs = ts → owner.isActive = false)
  /-- Nor whether the owner has been. -/
  | abortedOwner (habort : txn.state ≠ .aborted) {owner : Transaction} (hmem : owner ∈ tm.txnMap)
    (hstart : owner.startTs = ts)
    (howner : owner.state = .aborted) (hts : ts ≤ tm.nextTimestamp + 1000) (hlt : txn.startTs < ts)
  /-- Nor when it has been committed. -/
  | committedOwner (habort : txn.state ≠ .aborted) {owner : Transaction} (hmem : owner ∈ tm.txnMap)
    (hstart : owner.startTs = ts) (howner : owner.state = .committed) (hpos : 0 < ts) (hlt : ts < txn.startTs)
    (hcommit : txn.startTs < owner.commitTs)

theorem Ids.any_active (h : tm.Ids) (hmem : owner ∈ tm.txnMap) (hstart : owner.startTs = ts) :
    ((tm.txnMap.filter (·.isActive)).any (·.startTs = ts)) = owner.isActive := by
  rw [Bool.eq_iff_iff, List.any_eq_true]
  constructor
  · rintro ⟨other, hother, heq⟩
    obtain ⟨hmem', hactive⟩ := List.mem_filter.mp hother
    have hsame := h.start_inj other hmem' owner hmem ((of_decide_eq_true heq).trans hstart.symm)
    rwa [← hsame]
  · intro hactive
    exact ⟨owner, List.mem_filter.mpr ⟨hmem, hactive⟩, decide_eq_true hstart⟩

theorem any_active_of_none (h : tm.getTransactionByTimestamp ts = none) :
    ((tm.txnMap.filter (·.isActive)).any (·.startTs = ts)) = false := by
  rw [List.any_eq_false]
  intro other hother heq
  exact getTransactionByTimestamp_eq_none.mp h other (List.mem_filter.mp hother).1 (of_decide_eq_true heq)

theorem isWriteWriteConflict_of_pos (hpos : 0 < ts) (hne : ts ≠ txn.startTs) :
    tm.isWriteWriteConflict ts txn =
      ((tm.txnMap.filter (·.isActive)).any (·.startTs = ts) || decide (txn.startTs < ts)) := by
  unfold isWriteWriteConflict
  rw [if_neg (by omega), if_neg hne]
  cases (tm.txnMap.filter (·.isActive)).any (·.startTs = ts) with
  | true => rfl
  | false => rfl

theorem Settled.not_conflict_of_nonpos (h : tm.Settled) (htxn : txn ∈ tm.txnMap) (hts : ts ≤ 0) :
    tm.isWriteWriteConflict ts txn = false := by
  have hstart := h.start_nonneg txn htxn
  unfold isWriteWriteConflict
  by_cases hnone : ts = -1 ∨ ts = 0
  · rw [if_pos hnone]
  · have hany : ((tm.txnMap.filter (·.isActive)).any (·.startTs = ts)) = false := by
      rw [List.any_eq_false]
      intro other hother heq
      have := h.start_nonneg other (List.mem_filter.mp hother).1
      have := of_decide_eq_true heq
      omega
    rw [if_neg hnone, if_neg (by omega), hany, if_neg Bool.false_ne_true, decide_eq_false (by omega)]

theorem Settled.not_disputed_of_nonpos (h : tm.Settled) (htxn : txn ∈ tm.txnMap) (hts : ts ≤ 0) :
    ¬Disputed tm txn ts := by
  have hnext := h.nonneg
  have hstart := h.start_nonneg txn htxn
  intro hdisputed
  cases hdisputed with
  | noHeader => omega
  | abortedWriter => omega
  | abortedOwner => omega
  | committedOwner => omega

theorem not_disputed_of_own (hts : ts = txn.startTs) (hnear : ts ≤ tm.nextTimestamp + 1000) : ¬Disputed tm txn ts := by
  intro hdisputed
  cases hdisputed with
  | noHeader => omega
  | abortedWriter => omega
  | abortedOwner => omega
  | committedOwner => omega

/-- For an aborted writer, the owner has to be one that is not active. -/
theorem Ids.disputed_iff_of_abortedWriter (h : tm.Ids) (habort : txn.state = .aborted) (hpos : 0 < ts)
    (hnear : ts ≤ tm.nextTimestamp + 1000) :
    Disputed tm txn ts ↔ ts < txn.startTs ∧ (tm.txnMap.filter (·.isActive)).any (·.startTs = ts) = false := by
  constructor
  · intro hdisputed
    cases hdisputed with
    | noHeader => omega
    | abortedWriter _ _ hlt howner =>
      refine ⟨hlt, List.any_eq_false.mpr fun other hother heq => ?_⟩
      obtain ⟨hmem, hactive⟩ := List.mem_filter.mp hother
      rw [howner other hmem (of_decide_eq_true heq)] at hactive
      cases hactive
    | abortedOwner hnot => exact absurd habort hnot
    | committedOwner hnot => exact absurd habort hnot
  · rintro ⟨hlt, hany⟩
    apply Disputed.abortedWriter habort hpos hlt
    intro owner hmem hstart
    rw [← h.any_active hmem hstart, hany]

theorem not_disputed_of_unknown (habort : txn.state ≠ .aborted) (hnear : ts ≤ tm.nextTimestamp + 1000)
    (howner : tm.getTransactionByTimestamp ts = none) : ¬Disputed tm txn ts := by
  intro hdisputed
  cases hdisputed with
  | noHeader => omega
  | abortedWriter hyes => exact habort hyes
  | abortedOwner _ hmem hstart => exact getTransactionByTimestamp_eq_none.mp howner _ hmem hstart
  | committedOwner _ hmem hstart => exact getTransactionByTimestamp_eq_none.mp howner _ hmem hstart

/-- Otherwise the state and the timestamps of the owner decide. -/
theorem Ids.disputed_iff_of_owner (h : tm.Ids) (habort : txn.state ≠ .aborted) (hpos : 0 < ts)
    (hnear : ts ≤ tm.nextTimestamp + 1000) (hmem : owner ∈ tm.txnMap) (hstart : owner.startTs = ts) :
    Disputed tm txn ts ↔ owner.state = .aborted ∧ txn.startTs < ts ∨
      owner.state = .committed ∧ ts < txn.startTs ∧ txn.startTs < owner.commitTs := by
  have hsame : ∀ other ∈ tm.txnMap, other.startTs = ts → other = owner := fun other hother heq =>
    h.start_inj other hother owner hmem (heq.trans hstart.symm)
  constructor
  · intro hdisputed
    cases hdisputed with
    | noHeader => omega
    | abortedWriter hyes => exact absurd hyes habort
    | abortedOwner _ hother hstart' hstate _ hlt =>
      rw [hsame _ hother hstart'] at hstate
      exact .inl ⟨hstate, hlt⟩
    | committedOwner _ hother hstart' hstate _ hlt hcommit =>
      rw [hsame _ hother hstart'] at hstate hcommit
      exact .inr ⟨hstate, hlt, hcommit⟩
  · rintro (⟨hstate, hlt⟩ | ⟨hstate, hlt, hcommit⟩)
    · exact .abortedOwner habort hmem hstart hstate hnear hlt
    · exact .committedOwner habort hmem hstart hstate hpos hlt hcommit

end TransactionManager

namespace RmFileHandle

open TransactionManager

variable {fh : RmFileHandle} {tm : TransactionManager} {txn owner : Transaction} {rid : Rid} {ts : ℤ}

/-- The first check at a header with a timestamp of another transaction. -/
theorem checkWriteWriteConflict_of_header (hpage : fh.hasPage rid.pageNo) (hts : (fh.record rid).tupleMeta.ts = ts)
    (hpos : 0 < ts) (hle : ts ≤ tm.nextTimestamp + 1000) (hne : ts ≠ txn.startTs) :
    fh.checkWriteWriteConflict tm txn rid =
      if txn.state = .aborted then true
      else match (tm.getTransactionByTimestamp ts).filter (·.txnId ≠ txn.txnId) with
        | some owner =>
          if owner.isActive then true
          else if owner.state = .aborted then false
          else match tm.isCommitted ts, tm.getTransactionByTimestamp ts with
            | true, some owner => decide (txn.startTs < owner.commitTs)
            | _, _ => decide (txn.startTs < ts)
        | none =>
          match tm.isCommitted ts, tm.getTransactionByTimestamp ts with
          | true, some owner => decide (txn.startTs < owner.commitTs)
          | _, _ => decide (txn.startTs < ts) := by
  have hmeta : tm.effectiveMeta (fh.record rid).tupleMeta = (fh.record rid).tupleMeta := by
    unfold effectiveMeta hasTupleMeta
    rw [if_pos]
    rw [Bool.or_eq_true, Bool.and_eq_true, decide_eq_true_eq, decide_eq_true_eq, decide_eq_true_eq, hts]
    exact Or.inr ⟨hpos, hle⟩
  unfold checkWriteWriteConflict
  rw [if_pos hpage]
  dsimp only
  rw [hmeta, hts, if_neg (by omega)]
  exact if_neg hne

theorem checkWriteWriteConflict_of_no_header (hts : (fh.record rid).tupleMeta.ts = ts)
    (hnot : ts ≤ 0 ∨ tm.nextTimestamp + 1000 < ts) : fh.checkWriteWriteConflict tm txn rid = false := by
  have hmeta : (tm.effectiveMeta (fh.record rid).tupleMeta).ts = 0 := by
    unfold effectiveMeta
    split
    · next hheader =>
      unfold hasTupleMeta at hheader
      rw [Bool.or_eq_true, Bool.and_eq_true, decide_eq_true_eq, decide_eq_true_eq, decide_eq_true_eq, hts] at hheader
      omega
    · rfl
  unfold checkWriteWriteConflict
  dsimp only
  rw [hmeta, if_pos rfl]
  split
  · rfl
  · rfl

theorem checkWriteWriteConflict_of_own (hts : (fh.record rid).tupleMeta.ts = txn.startTs) :
    fh.checkWriteWriteConflict tm txn rid = false := by
  have hmeta : (tm.effectiveMeta (fh.record rid).tupleMeta).ts = 0 ∨
      (tm.effectiveMeta (fh.record rid).tupleMeta).ts = txn.startTs := by
    unfold effectiveMeta
    split
    · exact Or.inr hts
    · exact Or.inl rfl
  unfold checkWriteWriteConflict
  dsimp only
  split
  · by_cases hzero : (tm.effectiveMeta (fh.record rid).tupleMeta).ts = 0
    · rw [if_pos hzero]
    · rw [if_neg hzero, if_pos (hmeta.resolve_left hzero)]
  · rfl

theorem isCommitted_of_owner (h : tm.Settled) (hmem : owner ∈ tm.txnMap) (hstate : owner.state = .committed)
    (hpos : 0 < owner.startTs) : tm.isCommitted owner.startTs = true := by
  have habort : tm.isTransactionAborted owner.startTs = false := by
    unfold isTransactionAborted
    apply decide_eq_false
    intro hin
    have hstate' := (h.aborted owner.startTs hin).2 owner hmem rfl
    rw [hstate] at hstate'
    cases hstate'
  unfold isCommitted
  rw [if_neg (by omega), habort, if_neg Bool.false_ne_true, h.toIds.getTransactionByTimestamp hmem]
  exact decide_eq_true hstate

theorem sameVerdict_of_abortedWriter (h : tm.Settled) (hpage : fh.hasPage rid.pageNo)
    (hts : (fh.record rid).tupleMeta.ts = ts) (hpos : 0 < ts) (hnear : ts ≤ tm.nextTimestamp + 1000)
    (hown : ts ≠ txn.startTs) (habort : txn.state = .aborted) :
    fh.checkWriteWriteConflict tm txn rid = tm.isWriteWriteConflict ts txn ↔ ¬Disputed tm txn ts := by
  rw [checkWriteWriteConflict_of_header hpage hts hpos hnear hown, isWriteWriteConflict_of_pos hpos hown,
    if_pos habort, h.disputed_iff_of_abortedWriter habort hpos hnear, eq_comm, Bool.or_eq_true, decide_eq_true_eq]
  cases (tm.txnMap.filter (·.isActive)).any (·.startTs = ts) with
  | true => simp
  | false =>
    simp only [Bool.false_eq_true, false_or, and_true]
    omega

/-- Without an owner both checks compare the timestamps. -/
theorem sameVerdict_of_unknown (hpage : fh.hasPage rid.pageNo) (hts : (fh.record rid).tupleMeta.ts = ts)
    (hpos : 0 < ts) (hnear : ts ≤ tm.nextTimestamp + 1000) (hown : ts ≠ txn.startTs) (habort : txn.state ≠ .aborted)
    (howner : tm.getTransactionByTimestamp ts = none) :
    fh.checkWriteWriteConflict tm txn rid = tm.isWriteWriteConflict ts txn := by
  rw [checkWriteWriteConflict_of_header hpage hts hpos hnear hown, isWriteWriteConflict_of_pos hpos hown,
    if_neg habort, howner, any_active_of_none howner, Bool.false_or]
  change (match tm.isCommitted ts, (none : Option Transaction) with
    | true, some owner => decide (txn.startTs < owner.commitTs)
    | _, _ => decide (txn.startTs < ts)) = _
  cases tm.isCommitted ts with
  | true => rfl
  | false => rfl

theorem isActive_eq_false_iff : txn.isActive = false ↔ txn.state = .aborted ∨ txn.state = .committed := by
  unfold Transaction.isActive
  cases txn.state <;> simp

/-- The first check looks at the state of the owner, the second one asks only whether it is active. -/
theorem sameVerdict_of_owner (h : tm.Settled) (htxn : txn ∈ tm.txnMap) (hpage : fh.hasPage rid.pageNo)
    (hts : (fh.record rid).tupleMeta.ts = ts) (hpos : 0 < ts) (hnear : ts ≤ tm.nextTimestamp + 1000)
    (hown : ts ≠ txn.startTs) (habort : txn.state ≠ .aborted) (howner : tm.getTransactionByTimestamp ts = some owner) :
    fh.checkWriteWriteConflict tm txn rid = tm.isWriteWriteConflict ts txn ↔ ¬Disputed tm txn ts := by
  obtain ⟨hmem, hstart⟩ := mem_of_getTransactionByTimestamp howner
  have hid : owner.txnId ≠ txn.txnId := by
    intro heq
    rw [h.id_inj owner hmem txn htxn heq] at hstart
    exact hown hstart.symm
  rw [checkWriteWriteConflict_of_header hpage hts hpos hnear hown, isWriteWriteConflict_of_pos hpos hown,
    if_neg habort, howner, Option.filter_some, if_pos (decide_eq_true hid), h.any_active hmem hstart,
    h.disputed_iff_of_owner habort hpos hnear hmem hstart]
  dsimp only
  cases hactive : owner.isActive with
  | true =>
    have hended : ¬(owner.state = .aborted ∨ owner.state = .committed) := by
      rw [← isActive_eq_false_iff, hactive]
      exact Bool.noConfusion
    rw [if_pos rfl, Bool.true_or]
    exact iff_of_true rfl fun hdisputed => hended (hdisputed.imp And.left And.left)
  | false =>
    rw [if_neg Bool.false_ne_true, Bool.false_or]
    cases isActive_eq_false_iff.mp hactive with
    | inl hstate =>
      rw [if_pos hstate, hstate]
      simp
    | inr hstate =>
      have hlater := h.committed owner hmem hstate
      have hcommit := isCommitted_of_owner h hmem hstate (by omega)
      rw [hstart] at hlater hcommit
      rw [if_neg (by rw [hstate]; exact nofun), hcommit, hstate]
      dsimp only
      simp only [decide_eq_decide, reduceCtorEq, false_and, true_and, false_or, not_and, not_lt]
      omega

theorem sameVerdict_of_settled (h : tm.Settled) (htxn : txn ∈ tm.txnMap) (hpage : fh.hasPage rid.pageNo)
    (hts : (fh.record rid).tupleMeta.ts = ts) :
    fh.checkWriteWriteConflict tm txn rid = tm.isWriteWriteConflict ts txn ↔ ¬Disputed tm txn ts := by
  have hstartlt := h.start_lt txn htxn
  by_cases hpos : 0 < ts
  case neg =>
    have hle : ts ≤ 0 := not_lt.mp hpos
    rw [checkWriteWriteConflict_of_no_header hts (Or.inl hle), h.not_conflict_of_nonpos htxn hle]
    exact iff_of_true rfl (h.not_disputed_of_nonpos htxn hle)
  by_cases hfar : tm.nextTimestamp + 1000 < ts
  · rw [checkWriteWriteConflict_of_no_header hts (Or.inr hfar), isWriteWriteConflict_of_pos hpos (by omega),
      decide_eq_true (by omega), Bool.or_true]
    exact iff_of_false Bool.false_ne_true (not_not.mpr (.noHeader hfar))
  have hnear : ts ≤ tm.nextTimestamp + 1000 := not_lt.mp hfar
  by_cases hown : ts = txn.startTs
  · have hsecond : tm.isWriteWriteConflict ts txn = false := by
      unfold isWriteWriteConflict
      rw [if_neg (by omega), if_pos hown]
    rw [checkWriteWriteConflict_of_own (hts.trans hown), hsecond]
    exact iff_of_true rfl (not_disputed_of_own hown hnear)
  by_cases habort : txn.state = .aborted
  · exact sameVerdict_of_abortedWriter h hpage hts hpos hnear hown habort
  cases howner : tm.getTransactionByTimestamp ts with
  | none =>
    exact iff_of_true (sameVerdict_of_unknown hpage hts hpos hnear hown habort howner)
      (not_disputed_of_unknown habort hnear howner)
  | some owner => exact sameVerdict_of_owner h htxn hpage hts hpos hnear hown habort howner

end RmFileHandle

open TransactionManager

variable {db db' db₀ : Database}

theorem Database.moved_step {action : Action} (hstep : db.step action = some db') :
    db.store.txnMgr.Moved db'.store.txnMgr := by
  cases action with
  | begin =>
    cases hstep
    exact .begin
  | stmt txnId stmt =>
    obtain ⟨txn, -, -, hsteps⟩ := step_stmt hstep
    exact .inert hsteps.inert
  | commit txnId =>
    obtain ⟨txn, htxn, rfl⟩ := step_commit hstep
    obtain ⟨hmem, -, hactive⟩ := activeTxn_mem htxn
    rw [Store.commit_txnMgr]
    exact .commit hmem hactive
  | abort txnId =>
    obtain ⟨txn, store, htxn, habort, rfl⟩ := step_abort hstep
    obtain ⟨hmem, -, hactive⟩ := activeTxn_mem htxn
    rw [Store.rollbackAll_txnMgr habort]
    exact .abort hmem hactive (.modifyTxn fun _ => ⟨rfl, rfl, rfl, rfl⟩)
  | markAborted txnId =>
    obtain ⟨txn, htxn, rfl⟩ := step_markAborted hstep
    obtain ⟨hmem, -, hactive⟩ := activeTxn_mem htxn
    exact .abort hmem hactive (.refl _)
  | rollbackOne txnId =>
    obtain ⟨txn, store, -, -, hroll, rfl⟩ := step_rollbackOne hstep
    obtain ⟨-, -, -, -, -, -, htxnMgr, -⟩ := Store.rollbackOne_eq hroll
    rw [htxnMgr]
    exact .inert (.modifyTxn fun _ => ⟨rfl, rfl, rfl, rfl⟩)
  | garbageCollection =>
    cases hstep
    exact .collect
  | createTable tab colDefs =>
    rcases step_createTable hstep with rfl | ⟨-, recordSize, hstore⟩
    · exact .inert (.refl _)
    · rw [hstore]
      exact .inert (.refl _)
  | dropTable tab =>
    rcases step_dropTable hstep with hsame | hstore
    · rw [hsame]
      exact .inert (.refl _)
    · rw [hstore]
      exact .inert (.refl _)
  | createIndex tab colNames unique =>
    rw [step_createIndex hstep]
    exact .inert (.refl _)

theorem Database.Reaches.settled {allowed : Database → Action → Prop} (hreach : Reaches allowed db db')
    (h : db.store.txnMgr.Settled) : db'.store.txnMgr.Settled := by
  induction hreach with
  | refl => exact h
  | tail _ hstep ih =>
    obtain ⟨action, -, hstep⟩ := hstep
    exact ih.moved (moved_step hstep)

/-- In every state the two checks agree on all timestamps that are not disputed, and on no others. -/
theorem sameVerdict_iff {n : ℤ} {txn : Transaction} {fh : RmFileHandle} {rid : Rid} (hstart : db₀.Started n)
    (hreach : db₀.Reaches (fun _ _ => True) db) (htxn : txn ∈ db.store.txnMgr.txnMap) (hpage : fh.hasPage rid.pageNo) :
    fh.checkWriteWriteConflict db.store.txnMgr txn rid =
        db.store.txnMgr.isWriteWriteConflict (fh.record rid).tupleMeta.ts txn ↔
      ¬Disputed db.store.txnMgr txn (fh.record rid).tupleMeta.ts :=
  RmFileHandle.sameVerdict_of_settled (hreach.settled (hstart.txnMgr ▸ settled_init hstart.nonneg)) htxn hpage rfl

/-- The owner of the row is still active. -/
theorem sameVerdict_active :
    ∃ db txn fh, (emptyTables 1 ["t"]).run (fun _ _ => True)
        [.begin, .begin, .stmt 0 (.insert "t" [.int 1, .int 5])] = some db ∧
      db.activeTxn 1 = some txn ∧ db.store.fhs "t" = some fh ∧
      fh.checkWriteWriteConflict db.store.txnMgr txn ⟨1, 0⟩ = true ∧
      ¬Disputed db.store.txnMgr txn (fh.record ⟨1, 0⟩).tupleMeta.ts := by
  obtain ⟨db, hrun, txn, htxn, fh, hfh, hpage, hfirst, hsame⟩ : ∃ db, (emptyTables 1 ["t"]).run (fun _ _ => True)
        [.begin, .begin, .stmt 0 (.insert "t" [.int 1, .int 5])] = some db ∧
      ∃ txn, db.activeTxn 1 = some txn ∧ ∃ fh, db.store.fhs "t" = some fh ∧ fh.hasPage 1 ∧
        fh.checkWriteWriteConflict db.store.txnMgr txn ⟨1, 0⟩ = true ∧
        fh.checkWriteWriteConflict db.store.txnMgr txn ⟨1, 0⟩ =
          db.store.txnMgr.isWriteWriteConflict (fh.record ⟨1, 0⟩).tupleMeta.ts txn :=
    ⟨_, rfl, _, rfl, _, rfl, by decide +kernel, by decide +kernel, by decide +kernel⟩
  exact ⟨db, txn, fh, hrun, htxn, hfh, hfirst, (sameVerdict_iff (emptyTables_started (n := 1) (by decide) ["t"])
    (reaches_of_run hrun) (activeTxn_mem htxn).1 hpage).mp hsame⟩

/-- Transaction 0 has inserted a row and has been committed after the start of transaction 1. The row keeps the start
timestamp of transaction 0, by which the second check lets transaction 1 write it. -/
theorem not_sameVerdict :
    ¬∀ (db₀ db : Database) (n : ℤ) (txn : Transaction) (tab : String) (fh : RmFileHandle) (rid : Rid),
    db₀.Started n → db₀.Reaches (fun _ _ => True) db → txn ∈ db.store.txnMgr.txnMap → db.store.fhs tab = some fh →
    fh.hasPage rid.pageNo →
    fh.checkWriteWriteConflict db.store.txnMgr txn rid =
      db.store.txnMgr.isWriteWriteConflict (fh.record rid).tupleMeta.ts txn := by
  intro hclaim
  obtain ⟨db, hrun, txn, htxn, fh, hfh, hpage, hdiffers⟩ : ∃ db, (emptyTables 1 ["t"]).run (fun _ _ => True)
        [.begin, .begin, .stmt 0 (.insert "t" [.int 1, .int 5]), .commit 0] = some db ∧
      ∃ txn, db.activeTxn 1 = some txn ∧ ∃ fh, db.store.fhs "t" = some fh ∧ fh.hasPage 1 ∧
        fh.checkWriteWriteConflict db.store.txnMgr txn ⟨1, 0⟩ ≠
          db.store.txnMgr.isWriteWriteConflict (fh.record ⟨1, 0⟩).tupleMeta.ts txn :=
    ⟨_, rfl, _, rfl, _, rfl, by decide +kernel, by decide +kernel⟩
  exact hdiffers (hclaim _ db 1 txn "t" fh ⟨1, 0⟩ (emptyTables_started (by decide) ["t"]) (reaches_of_run hrun)
    (activeTxn_mem htxn).1 hfh hpage)

end Rmdb
