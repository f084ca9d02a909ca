import Rmdb.Transaction.Store

/-! What holds of the transaction table in every run: identifiers and start timestamps are
distinct, and the sets of finished transactions agree with the states. Garbage collection keeps
the first part only. -/
namespace Rmdb

/-- A transaction as its commit leaves it. -/
def Transaction.committedAt (txn : Transaction) (commitTs : ℤ) : Transaction :=
  { txn with
    commitTs
    state := .committed
    undoLogs := txn.undoLogs.map fun log =>
      if log.ts = txn.startTs then { log with ts := commitTs } else log }

namespace TransactionManager

/-- The part that garbage collection keeps. -/
structure Ids (tm : TransactionManager) : Prop where
  next : 0 ≤ tm.nextTxnId
  bounds : ∀ txn ∈ tm.txnMap, 0 ≤ txn.txnId ∧ txn.txnId < tm.nextTxnId
  start_lt : ∀ txn ∈ tm.txnMap, txn.startTs < tm.nextTimestamp
  id_inj : ∀ a ∈ tm.txnMap, ∀ b ∈ tm.txnMap, a.txnId = b.txnId → a = b
  start_inj : ∀ a ∈ tm.txnMap, ∀ b ∈ tm.txnMap, a.startTs = b.startTs → a = b

/-- The sets of timestamps agree with the transaction table. -/
structure Inv (tm : TransactionManager) : Prop extends tm.Ids where
  committed : ∀ txn ∈ tm.txnMap, txn.state = .committed →
    txn.startTs < txn.commitTs ∧ txn.commitTs < tm.nextTimestamp ∧ txn.commitTs ∈ tm.committedTxns
  commit_ne_start : ∀ a ∈ tm.txnMap, ∀ b ∈ tm.txnMap, a.state = .committed → a.commitTs ≠ b.startTs
  commit_inj : ∀ a ∈ tm.txnMap, ∀ b ∈ tm.txnMap, a.state = .committed → b.state = .committed →
    a.commitTs = b.commitTs → a = b
  committedTxns : ∀ ts ∈ tm.committedTxns, ∃ txn ∈ tm.txnMap, txn.state = .committed ∧ txn.commitTs = ts
  abortedTxns : ∀ ts, ts ∈ tm.abortedTxns ↔ ∃ txn ∈ tm.txnMap, txn.state = .aborted ∧ txn.startTs = ts

theorem inv_init (nextTimestamp : ℤ) : (init nextTimestamp).Inv where
  next := le_refl (0 : ℤ)
  bounds _ h := by cases h
  start_lt _ h := by cases h
  id_inj _ h := by cases h
  start_inj _ h := by cases h
  committed _ h := by cases h
  commit_ne_start _ h := by cases h
  commit_inj _ h := by cases h
  committedTxns _ h := by cases h
  abortedTxns ts := by simp [init]

variable {tm tm' : TransactionManager} {txn : Transaction} {id ts : ℤ}

/-! ### Looking transactions up -/

theorem Ids.ne_invalid (h : tm.Ids) (htxn : txn ∈ tm.txnMap) : txn.txnId ≠ invalidTxnId := by
  have := (h.bounds txn htxn).1
  simp only [invalidTxnId]
  omega

theorem Ids.getTransaction (h : tm.Ids) (htxn : txn ∈ tm.txnMap) :
    tm.getTransaction txn.txnId = some txn := by
  have hne := h.ne_invalid htxn
  cases hget : tm.getTransaction txn.txnId with
  | none =>
    unfold TransactionManager.getTransaction at hget
    rw [if_neg hne, List.find?_eq_none] at hget
    simpa using hget txn htxn
  | some cur =>
    have hcur := mem_of_getTransaction hget
    rw [h.id_inj cur hcur.1 txn htxn hcur.2]

theorem Ids.getTransaction_iff (h : tm.Ids) :
    tm.getTransaction id = some txn ↔ txn ∈ tm.txnMap ∧ txn.txnId = id := by
  constructor
  · exact mem_of_getTransaction
  · rintro ⟨htxn, rfl⟩
    exact h.getTransaction htxn

theorem Ids.getTransactionByTimestamp (h : tm.Ids) (htxn : txn ∈ tm.txnMap) :
    tm.getTransactionByTimestamp txn.startTs = some txn := by
  cases hget : tm.getTransactionByTimestamp txn.startTs with
  | none =>
    have := getTransactionByTimestamp_eq_none.mp hget txn htxn
    exact absurd rfl this
  | some cur =>
    have hcur := mem_of_getTransactionByTimestamp hget
    rw [h.start_inj cur hcur.1 txn htxn hcur.2]

/-! ### Changes that concern no status -/

/-- Logs, write sets and version links may change, but no identifier, timestamp or state. -/
structure Inert (tm tm' : TransactionManager) : Prop where
  txnMap : ∃ f : Transaction → Transaction, tm'.txnMap = tm.txnMap.map f ∧
    ∀ txn, (f txn).txnId = txn.txnId ∧ (f txn).startTs = txn.startTs ∧ (f txn).state = txn.state ∧
      (f txn).commitTs = txn.commitTs
  nextTxnId : tm'.nextTxnId = tm.nextTxnId
  nextTimestamp : tm'.nextTimestamp = tm.nextTimestamp
  runningTxns : tm'.runningTxns = tm.runningTxns
  abortedTxns : tm'.abortedTxns = tm.abortedTxns
  committedTxns : tm'.committedTxns = tm.committedTxns

theorem Inert.modifyTxn {f : Transaction → Transaction} {versionInfo : Rid → Option UndoLink}
    (hf : ∀ txn, (f txn).txnId = txn.txnId ∧ (f txn).startTs = txn.startTs ∧
      (f txn).state = txn.state ∧ (f txn).commitTs = txn.commitTs) :
    tm.Inert { tm.modifyTxn id f with versionInfo } := by
  refine ⟨⟨_, rfl, fun txn => ?_⟩, rfl, rfl, rfl, rfl, rfl⟩
  split
  · exact hf txn
  · exact ⟨rfl, rfl, rfl, rfl⟩

theorem Inert.refl (tm : TransactionManager) : tm.Inert tm :=
  ⟨⟨id, (List.map_id _).symm, fun _ => ⟨rfl, rfl, rfl, rfl⟩⟩, rfl, rfl, rfl, rfl, rfl⟩

theorem Inert.trans {tm'' : TransactionManager} (h : tm.Inert tm') (h' : tm'.Inert tm'') :
    tm.Inert tm'' := by
  obtain ⟨f, hf, hfs⟩ := h.txnMap
  obtain ⟨g, hg, hgs⟩ := h'.txnMap
  refine ⟨⟨g ∘ f, by rw [hg, hf, List.map_map], fun txn => ?_⟩, h'.nextTxnId.trans h.nextTxnId,
    h'.nextTimestamp.trans h.nextTimestamp, h'.runningTxns.trans h.runningTxns,
    h'.abortedTxns.trans h.abortedTxns, h'.committedTxns.trans h.committedTxns⟩
  have h₁ := hfs txn
  have h₂ := hgs (f txn)
  simp only [Function.comp_apply]
  exact ⟨h₂.1.trans h₁.1, h₂.2.1.trans h₁.2.1, h₂.2.2.1.trans h₁.2.2.1, h₂.2.2.2.trans h₁.2.2.2⟩

/-- The status fields of a transaction after an inert change. -/
theorem Inert.mem (h : tm.Inert tm') (htxn : txn ∈ tm'.txnMap) :
    ∃ old ∈ tm.txnMap, txn.txnId = old.txnId ∧ txn.startTs = old.startTs ∧ txn.state = old.state ∧
      txn.commitTs = old.commitTs := by
  obtain ⟨f, hf, hfs⟩ := h.txnMap
  rw [hf] at htxn
  obtain ⟨old, hold, rfl⟩ := List.mem_map.mp htxn
  exact ⟨old, hold, hfs old⟩

theorem Inert.mem' (h : tm.Inert tm') (htxn : txn ∈ tm.txnMap) :
    ∃ new ∈ tm'.txnMap, new.txnId = txn.txnId ∧ new.startTs = txn.startTs ∧ new.state = txn.state ∧
      new.commitTs = txn.commitTs := by
  obtain ⟨f, hf, hfs⟩ := h.txnMap
  exact ⟨f txn, hf ▸ List.mem_map_of_mem htxn, hfs txn⟩

theorem Inert.ids (h : tm.Inert tm') (hids : tm.Ids) : tm'.Ids := by
  obtain ⟨f, hf, hfs⟩ := h.txnMap
  constructor
  · rw [h.nextTxnId]
    exact hids.next
  · intro txn htxn
    obtain ⟨old, hold, hid, -⟩ := h.mem htxn
    rw [hid, h.nextTxnId]
    exact hids.bounds old hold
  · intro txn htxn
    obtain ⟨old, hold, -, hstart, -⟩ := h.mem htxn
    rw [hstart, h.nextTimestamp]
    exact hids.start_lt old hold
  · intro a ha b hb hab
    rw [hf] at ha hb
    obtain ⟨a₀, ha₀, rfl⟩ := List.mem_map.mp ha
    obtain ⟨b₀, hb₀, rfl⟩ := List.mem_map.mp hb
    rw [(hfs a₀).1, (hfs b₀).1] at hab
    rw [hids.id_inj a₀ ha₀ b₀ hb₀ hab]
  · intro a ha b hb hab
    rw [hf] at ha hb
    obtain ⟨a₀, ha₀, rfl⟩ := List.mem_map.mp ha
    obtain ⟨b₀, hb₀, rfl⟩ := List.mem_map.mp hb
    rw [(hfs a₀).2.1, (hfs b₀).2.1] at hab
    rw [hids.start_inj a₀ ha₀ b₀ hb₀ hab]

theorem Inert.inv (h : tm.Inert tm') (hinv : tm.Inv) : tm'.Inv := by
  obtain ⟨f, hf, hfs⟩ := h.txnMap
  refine ⟨h.ids hinv.toIds, ?_, ?_, ?_, ?_, ?_⟩
  · intro txn htxn hstate
    obtain ⟨old, hold, -, hstart, hst, hcommit⟩ := h.mem htxn
    rw [hstart, hcommit, h.nextTimestamp, h.committedTxns]
    exact hinv.committed old hold (hst ▸ hstate)
  · intro a ha b hb hstate
    obtain ⟨a', ha', -, -, hst, hcommit⟩ := h.mem ha
    obtain ⟨b', hb', -, hstart, -⟩ := h.mem hb
    rw [hcommit, hstart]
    exact hinv.commit_ne_start a' ha' b' hb' (hst ▸ hstate)
  · intro a ha b hb hsa hsb hab
    rw [hf] at ha hb
    obtain ⟨a₀, ha₀, rfl⟩ := List.mem_map.mp ha
    obtain ⟨b₀, hb₀, rfl⟩ := List.mem_map.mp hb
    rw [(hfs a₀).2.2.2, (hfs b₀).2.2.2] at hab
    rw [(hfs a₀).2.2.1] at hsa
    rw [(hfs b₀).2.2.1] at hsb
    rw [hinv.commit_inj a₀ ha₀ b₀ hb₀ hsa hsb hab]
  · intro ts hts
    rw [h.committedTxns] at hts
    obtain ⟨old, hold, hst, hcommit⟩ := hinv.committedTxns ts hts
    obtain ⟨new, hnew, -, -, hst', hcommit'⟩ := h.mem' hold
    exact ⟨new, hnew, hst'.trans hst, hcommit'.trans hcommit⟩
  · intro ts
    rw [h.abortedTxns, hinv.abortedTxns ts]
    constructor
    · rintro ⟨old, hold, hst, hstart⟩
      obtain ⟨new, hnew, -, hstart', hst', -⟩ := h.mem' hold
      exact ⟨new, hnew, hst'.trans hst, hstart'.trans hstart⟩
    · rintro ⟨new, hnew, hst, hstart⟩
      obtain ⟨old, hold, -, hstart', hst', -⟩ := h.mem hnew
      exact ⟨old, hold, hst'.symm.trans hst, hstart'.symm.trans hstart⟩

/-! ### Begin -/

theorem mem_begin : txn ∈ tm.begin.2.txnMap ↔ txn ∈ tm.txnMap ∨ txn = tm.newTransaction := by
  simp [begin]

theorem Ids.begin (h : tm.Ids) : tm.begin.2.Ids := by
  have hnew : ∀ txn ∈ tm.txnMap, txn.txnId ≠ tm.nextTxnId ∧ txn.startTs ≠ tm.nextTimestamp :=
    fun txn htxn => ⟨(h.bounds txn htxn).2.ne, (h.start_lt txn htxn).ne⟩
  constructor
  · have := h.next
    simp only [TransactionManager.begin]
    omega
  · intro txn htxn
    have hnext := h.next
    rcases mem_begin.mp htxn with htxn | rfl
    · have := h.bounds txn htxn
      simp only [TransactionManager.begin]
      omega
    · simp only [TransactionManager.begin, newTransaction]
      omega
  · intro txn htxn
    rcases mem_begin.mp htxn with htxn | rfl
    · have := h.start_lt txn htxn
      simp only [TransactionManager.begin]
      omega
    · simp only [TransactionManager.begin, newTransaction]
      omega
  · intro a ha b hb hab
    rcases mem_begin.mp ha with ha | rfl <;> rcases mem_begin.mp hb with hb | rfl
    · exact h.id_inj a ha b hb hab
    · exact absurd hab (hnew a ha).1
    · exact absurd hab.symm (hnew b hb).1
    · rfl
  · intro a ha b hb hab
    rcases mem_begin.mp ha with ha | rfl <;> rcases mem_begin.mp hb with hb | rfl
    · exact h.start_inj a ha b hb hab
    · exact absurd hab (hnew a ha).2
    · exact absurd hab.symm (hnew b hb).2
    · rfl

theorem Inv.begin (h : tm.Inv) : tm.begin.2.Inv := by
  refine ⟨h.toIds.begin, ?_, ?_, ?_, ?_, ?_⟩
  · intro txn htxn hstate
    rcases mem_begin.mp htxn with htxn | rfl
    · have := h.committed txn htxn hstate
      exact ⟨this.1, this.2.1.trans (Int.lt_succ _), this.2.2⟩
    · cases hstate
  · intro a ha b hb hstate
    rcases mem_begin.mp ha with ha | rfl
    · rcases mem_begin.mp hb with hb | rfl
      · exact h.commit_ne_start a ha b hb hstate
      · exact (h.committed a ha hstate).2.1.ne
    · cases hstate
  · intro a ha b hb hsa hsb hab
    rcases mem_begin.mp ha with ha | rfl
    · rcases mem_begin.mp hb with hb | rfl
      · exact h.commit_inj a ha b hb hsa hsb hab
      · cases hsb
    · cases hsa
  · intro ts hts
    obtain ⟨txn, htxn, h'⟩ := h.committedTxns ts hts
    exact ⟨txn, mem_begin.mpr (.inl htxn), h'⟩
  · intro ts
    have habort := h.abortedTxns ts
    constructor
    · intro hts
      obtain ⟨txn, htxn, h'⟩ := habort.mp hts
      exact ⟨txn, mem_begin.mpr (.inl htxn), h'⟩
    · rintro ⟨txn, htxn, hst, hstart⟩
      rcases mem_begin.mp htxn with htxn | rfl
      · exact habort.mpr ⟨txn, htxn, hst, hstart⟩
      · cases hst

/-! ### Commit and abort -/

/-- All that a commit does to the transaction manager. -/
def commitTxn (tm : TransactionManager) (txn : Transaction) : TransactionManager :=
  ({ tm with nextTimestamp := tm.nextTimestamp + 1 }.stampCommit txn.txnId
    tm.nextTimestamp).finishCommit txn.txnId txn.startTs tm.nextTimestamp

theorem commitTxn_txnMap :
    (tm.commitTxn txn).txnMap = tm.txnMap.map fun cur =>
      if cur.txnId = txn.txnId then cur.committedAt tm.nextTimestamp else cur := by
  simp only [commitTxn, finishCommit, stampCommit, modifyTxn, List.map_map]
  congr 1
  funext cur
  by_cases h : cur.txnId = txn.txnId <;> simp [h, Transaction.committedAt]

theorem markAborted_txnMap :
    (tm.markAborted txn.txnId txn.startTs).txnMap = tm.txnMap.map fun cur =>
      if cur.txnId = txn.txnId then { cur with state := .aborted } else cur := rfl

private theorem ids_map {f : Transaction → Transaction} (h : tm.Ids)
    (hmap : tm'.txnMap = tm.txnMap.map f)
    (hf : ∀ txn, (f txn).txnId = txn.txnId ∧ (f txn).startTs = txn.startTs)
    (hid : tm'.nextTxnId = tm.nextTxnId) (hts : tm.nextTimestamp ≤ tm'.nextTimestamp) : tm'.Ids := by
  constructor
  · rw [hid]
    exact h.next
  all_goals rw [hmap]
  · intro txn htxn
    obtain ⟨old, hold, rfl⟩ := List.mem_map.mp htxn
    rw [(hf old).1, hid]
    exact h.bounds old hold
  · intro txn htxn
    obtain ⟨old, hold, rfl⟩ := List.mem_map.mp htxn
    rw [(hf old).2]
    exact (h.start_lt old hold).trans_le hts
  · intro a ha b hb hab
    obtain ⟨a₀, ha₀, rfl⟩ := List.mem_map.mp ha
    obtain ⟨b₀, hb₀, rfl⟩ := List.mem_map.mp hb
    rw [(hf a₀).1, (hf b₀).1] at hab
    rw [h.id_inj a₀ ha₀ b₀ hb₀ hab]
  · intro a ha b hb hab
    obtain ⟨a₀, ha₀, rfl⟩ := List.mem_map.mp ha
    obtain ⟨b₀, hb₀, rfl⟩ := List.mem_map.mp hb
    rw [(hf a₀).2, (hf b₀).2] at hab
    rw [h.start_inj a₀ ha₀ b₀ hb₀ hab]

theorem Ids.commitTxn (h : tm.Ids) : (tm.commitTxn txn).Ids := by
  refine ids_map h commitTxn_txnMap (fun cur => ?_) rfl (Int.le_add_one le_rfl)
  split <;> exact ⟨rfl, rfl⟩

theorem Ids.markAborted (h : tm.Ids) : (tm.markAborted txn.txnId txn.startTs).Ids := by
  refine ids_map h markAborted_txnMap (fun cur => ?_) rfl le_rfl
  split <;> exact ⟨rfl, rfl⟩

/-- The transactions after a commit: the old ones, and the one that has been committed. -/
theorem mem_commitTxn {new : Transaction} (h : new ∈ (tm.commitTxn txn).txnMap) :
    ∃ old ∈ tm.txnMap, (old.txnId ≠ txn.txnId ∧ new = old) ∨
      (old.txnId = txn.txnId ∧ new = old.committedAt tm.nextTimestamp) := by
  rw [commitTxn_txnMap] at h
  obtain ⟨old, hold, rfl⟩ := List.mem_map.mp h
  refine ⟨old, hold, ?_⟩
  split
  · rename_i hid
    exact .inr ⟨hid, rfl⟩
  · rename_i hid
    exact .inl ⟨hid, rfl⟩

theorem mem_markAborted {new : Transaction} (h : new ∈ (tm.markAborted txn.txnId txn.startTs).txnMap) :
    ∃ old ∈ tm.txnMap, (old.txnId ≠ txn.txnId ∧ new = old) ∨
      (old.txnId = txn.txnId ∧ new = { old with state := .aborted }) := by
  rw [markAborted_txnMap] at h
  obtain ⟨old, hold, rfl⟩ := List.mem_map.mp h
  refine ⟨old, hold, ?_⟩
  split
  · rename_i hid
    exact .inr ⟨hid, rfl⟩
  · rename_i hid
    exact .inl ⟨hid, rfl⟩

theorem commitTxn_mem_of_ne {old : Transaction} (h : old ∈ tm.txnMap) (hid : old.txnId ≠ txn.txnId) :
    old ∈ (tm.commitTxn txn).txnMap := by
  rw [commitTxn_txnMap]
  exact List.mem_map.mpr ⟨old, h, if_neg hid⟩

theorem commitTxn_mem_self {old : Transaction} (h : old ∈ tm.txnMap) (hid : old.txnId = txn.txnId) :
    old.committedAt tm.nextTimestamp ∈ (tm.commitTxn txn).txnMap := by
  rw [commitTxn_txnMap]
  exact List.mem_map.mpr ⟨old, h, if_pos hid⟩

theorem markAborted_mem_of_ne {old : Transaction} (h : old ∈ tm.txnMap)
    (hid : old.txnId ≠ txn.txnId) : old ∈ (tm.markAborted txn.txnId txn.startTs).txnMap := by
  rw [markAborted_txnMap]
  exact List.mem_map.mpr ⟨old, h, if_neg hid⟩

theorem markAborted_mem_self {old : Transaction} (h : old ∈ tm.txnMap)
    (hid : old.txnId = txn.txnId) :
    { old with state := .aborted } ∈ (tm.markAborted txn.txnId txn.startTs).txnMap := by
  rw [markAborted_txnMap]
  exact List.mem_map.mpr ⟨old, h, if_pos hid⟩

/-- The commit of a transaction of the table that has not ended yet. -/
theorem Inv.commitTxn {cur : Transaction} (h : tm.Inv) (hcur : cur ∈ tm.txnMap)
    (hid : cur.txnId = txn.txnId) (hactive : cur.isActive = true) : (tm.commitTxn txn).Inv := by
  have hne : ∀ old ∈ tm.txnMap, old.txnId = txn.txnId → old = cur := fun old hold hold' =>
    h.id_inj old hold cur hcur (hold'.trans hid.symm)
  refine ⟨h.toIds.commitTxn, ?_, ?_, ?_, ?_, ?_⟩
  · intro new hnew hstate
    obtain ⟨old, hold, ⟨-, rfl⟩ | ⟨hold', rfl⟩⟩ := mem_commitTxn hnew
    · have := h.committed new hold hstate
      exact ⟨this.1, this.2.1.trans (Int.lt_succ _), List.mem_cons_of_mem _ this.2.2⟩
    · exact ⟨h.start_lt old hold, Int.lt_succ _, List.mem_cons_self⟩
  · intro a ha b hb hstate
    obtain ⟨a₀, ha₀, ⟨-, rfl⟩ | ⟨-, rfl⟩⟩ := mem_commitTxn ha <;>
      obtain ⟨b₀, hb₀, ⟨-, rfl⟩ | ⟨-, rfl⟩⟩ := mem_commitTxn hb
    · exact h.commit_ne_start a ha₀ b hb₀ hstate
    · exact h.commit_ne_start a ha₀ b₀ hb₀ hstate
    · exact (h.start_lt b hb₀).ne'
    · exact (h.start_lt b₀ hb₀).ne'
  · intro a ha b hb hsa hsb hab
    obtain ⟨a₀, ha₀, ⟨hida, rfl⟩ | ⟨hida, rfl⟩⟩ := mem_commitTxn ha <;>
      obtain ⟨b₀, hb₀, ⟨hidb, rfl⟩ | ⟨hidb, rfl⟩⟩ := mem_commitTxn hb
    · exact h.commit_inj a ha₀ b hb₀ hsa hsb hab
    · exact absurd hab (h.committed a ha₀ hsa).2.1.ne
    · exact absurd hab.symm (h.committed b hb₀ hsb).2.1.ne
    · rw [hne a₀ ha₀ hida, hne b₀ hb₀ hidb]
  · intro ts hts
    rcases List.mem_cons.mp hts with rfl | hts
    · exact ⟨_, commitTxn_mem_self hcur hid, rfl, rfl⟩
    · obtain ⟨old, hold, hstate, hts⟩ := h.committedTxns ts hts
      refine ⟨old, commitTxn_mem_of_ne hold fun hold' => ?_, hstate, hts⟩
      rw [hne old hold hold'] at hstate
      simp [Transaction.isActive, hstate] at hactive
  · intro ts
    refine (h.abortedTxns ts).trans ⟨?_, ?_⟩
    · rintro ⟨old, hold, hstate, hts⟩
      refine ⟨old, commitTxn_mem_of_ne hold fun hold' => ?_, hstate, hts⟩
      rw [hne old hold hold'] at hstate
      simp [Transaction.isActive, hstate] at hactive
    · rintro ⟨new, hnew, hstate, hts⟩
      obtain ⟨old, hold, ⟨-, rfl⟩ | ⟨-, rfl⟩⟩ := mem_commitTxn hnew
      · exact ⟨new, hold, hstate, hts⟩
      · cases hstate

theorem Inv.markAborted {cur : Transaction} (h : tm.Inv) (hcur : cur ∈ tm.txnMap)
    (hid : cur.txnId = txn.txnId) (hstart : cur.startTs = txn.startTs) (hactive : cur.isActive = true) :
    (tm.markAborted txn.txnId txn.startTs).Inv := by
  have hne : ∀ old ∈ tm.txnMap, old.txnId = txn.txnId → old = cur := fun old hold hold' =>
    h.id_inj old hold cur hcur (hold'.trans hid.symm)
  refine ⟨h.toIds.markAborted, ?_, ?_, ?_, ?_, ?_⟩
  · intro new hnew hstate
    obtain ⟨old, hold, ⟨-, rfl⟩ | ⟨hold', rfl⟩⟩ := mem_markAborted hnew
    · exact h.committed new hold hstate
    · cases hstate
  · intro a ha b hb hstate
    obtain ⟨a₀, ha₀, ⟨-, rfl⟩ | ⟨-, rfl⟩⟩ := mem_markAborted ha
    · obtain ⟨b₀, hb₀, ⟨-, rfl⟩ | ⟨-, rfl⟩⟩ := mem_markAborted hb
      · exact h.commit_ne_start a ha₀ b hb₀ hstate
      · exact h.commit_ne_start a ha₀ b₀ hb₀ hstate
    · cases hstate
  · intro a ha b hb hsa hsb hab
    obtain ⟨a₀, ha₀, ⟨-, rfl⟩ | ⟨-, rfl⟩⟩ := mem_markAborted ha
    · obtain ⟨b₀, hb₀, ⟨-, rfl⟩ | ⟨-, rfl⟩⟩ := mem_markAborted hb
      · exact h.commit_inj a ha₀ b hb₀ hsa hsb hab
      · cases hsb
    · cases hsa
  · intro ts hts
    obtain ⟨old, hold, hstate, hts⟩ := h.committedTxns ts hts
    refine ⟨old, markAborted_mem_of_ne hold fun hold' => ?_, hstate, hts⟩
    rw [hne old hold hold'] at hstate
    simp [Transaction.isActive, hstate] at hactive
  · intro ts
    constructor
    · intro hts
      rcases List.mem_cons.mp hts with rfl | hts
      · exact ⟨_, markAborted_mem_self hcur hid, rfl, hstart⟩
      · obtain ⟨old, hold, hstate, hts⟩ := (h.abortedTxns ts).mp hts
        refine ⟨old, markAborted_mem_of_ne hold fun hold' => ?_, hstate, hts⟩
        rw [hne old hold hold'] at hstate
        simp [Transaction.isActive, hstate] at hactive
    · rintro ⟨new, hnew, hstate, hts⟩
      obtain ⟨old, hold, ⟨-, rfl⟩ | ⟨hold', rfl⟩⟩ := mem_markAborted hnew
      · exact List.mem_cons_of_mem _ ((h.abortedTxns ts).mpr ⟨new, hold, hstate, hts⟩)
      · rw [hne old hold hold'] at hts
        rw [← hts]
        exact hstart ▸ List.mem_cons_self

/-! ### What later states keep -/

/-- Transactions stay, finished ones as they are; new ones start later. -/
structure Grows (tm tm' : TransactionManager) : Prop where
  nextTxnId : tm.nextTxnId ≤ tm'.nextTxnId
  nextTimestamp : tm.nextTimestamp ≤ tm'.nextTimestamp
  keeps : ∀ old ∈ tm.txnMap, ∃ new ∈ tm'.txnMap, new.txnId = old.txnId ∧ new.startTs = old.startTs ∧
    (old.isActive = false → new.state = old.state ∧ new.commitTs = old.commitTs)
  old_or_new : ∀ new ∈ tm'.txnMap,
    (∃ old ∈ tm.txnMap, old.txnId = new.txnId ∧ old.startTs = new.startTs) ∨
      (tm.nextTxnId ≤ new.txnId ∧ tm.nextTimestamp ≤ new.startTs)

theorem Grows.refl (tm : TransactionManager) : tm.Grows tm where
  nextTxnId := le_rfl
  nextTimestamp := le_rfl
  keeps old hold := ⟨old, hold, rfl, rfl, fun _ => ⟨rfl, rfl⟩⟩
  old_or_new new hnew := .inl ⟨new, hnew, rfl, rfl⟩

theorem isActive_congr {a b : Transaction} (h : a.state = b.state) : a.isActive = b.isActive := by
  simp only [Transaction.isActive, h]

theorem Grows.trans {tm'' : TransactionManager} (h : tm.Grows tm') (h' : tm'.Grows tm'') :
    tm.Grows tm'' where
  nextTxnId := h.nextTxnId.trans h'.nextTxnId
  nextTimestamp := h.nextTimestamp.trans h'.nextTimestamp
  keeps old hold := by
    obtain ⟨mid, hmid, hid, hstart, hfin⟩ := h.keeps old hold
    obtain ⟨new, hnew, hid', hstart', hfin'⟩ := h'.keeps mid hmid
    refine ⟨new, hnew, hid'.trans hid, hstart'.trans hstart, fun hactive => ?_⟩
    have h₁ := hfin hactive
    have h₂ := hfin' ((isActive_congr h₁.1).trans hactive)
    exact ⟨h₂.1.trans h₁.1, h₂.2.trans h₁.2⟩
  old_or_new new hnew := by
    rcases h'.old_or_new new hnew with ⟨mid, hmid, hid, hstart⟩ | hlate
    · rcases h.old_or_new mid hmid with ⟨old, hold, hid', hstart'⟩ | hlate
      · exact .inl ⟨old, hold, hid'.trans hid, hstart'.trans hstart⟩
      · rw [hid, hstart] at hlate
        exact .inr hlate
    · exact .inr ⟨h.nextTxnId.trans hlate.1, h.nextTimestamp.trans hlate.2⟩

theorem Inert.grows (h : tm.Inert tm') : tm.Grows tm' where
  nextTxnId := h.nextTxnId.ge
  nextTimestamp := h.nextTimestamp.ge
  keeps old hold := by
    obtain ⟨new, hnew, hid, hstart, hstate, hcommit⟩ := h.mem' hold
    exact ⟨new, hnew, hid, hstart, fun _ => ⟨hstate, hcommit⟩⟩
  old_or_new new hnew := by
    obtain ⟨old, hold, hid, hstart, -⟩ := h.mem hnew
    exact .inl ⟨old, hold, hid.symm, hstart.symm⟩

theorem grows_begin (tm : TransactionManager) : tm.Grows tm.begin.2 where
  nextTxnId := Int.le_add_one le_rfl
  nextTimestamp := Int.le_add_one le_rfl
  keeps old hold := ⟨old, mem_begin.mpr (.inl hold), rfl, rfl, fun _ => ⟨rfl, rfl⟩⟩
  old_or_new new hnew := by
    rcases mem_begin.mp hnew with hnew | rfl
    · exact .inl ⟨new, hnew, rfl, rfl⟩
    · exact .inr ⟨le_rfl, le_rfl⟩

theorem Ids.grows_commit {cur : Transaction} (h : tm.Ids) (hcur : cur ∈ tm.txnMap)
    (hactive : cur.isActive = true) : tm.Grows (tm.commitTxn cur) where
  nextTxnId := le_rfl
  nextTimestamp := Int.le_add_one le_rfl
  keeps old hold := by
    by_cases hid : old.txnId = cur.txnId
    · refine ⟨_, commitTxn_mem_self hold hid, rfl, rfl, fun hfin => ?_⟩
      rw [h.id_inj old hold cur hcur hid, hactive] at hfin
      cases hfin
    · exact ⟨old, commitTxn_mem_of_ne hold hid, rfl, rfl, fun _ => ⟨rfl, rfl⟩⟩
  old_or_new new hnew := by
    obtain ⟨old, hold, ⟨-, rfl⟩ | ⟨-, rfl⟩⟩ := mem_commitTxn hnew <;> exact .inl ⟨_, hold, rfl, rfl⟩

theorem Ids.grows_markAborted {cur : Transaction} (h : tm.Ids) (hcur : cur ∈ tm.txnMap)
    (hactive : cur.isActive = true) : tm.Grows (tm.markAborted cur.txnId cur.startTs) where
  nextTxnId := le_rfl
  nextTimestamp := le_rfl
  keeps old hold := by
    by_cases hid : old.txnId = cur.txnId
    · refine ⟨_, markAborted_mem_self hold hid, rfl, rfl, fun hfin => ?_⟩
      rw [h.id_inj old hold cur hcur hid, hactive] at hfin
      cases hfin
    · exact ⟨old, markAborted_mem_of_ne hold hid, rfl, rfl, fun _ => ⟨rfl, rfl⟩⟩
  old_or_new new hnew := by
    obtain ⟨old, hold, ⟨-, rfl⟩ | ⟨-, rfl⟩⟩ := mem_markAborted hnew <;> exact .inl ⟨_, hold, rfl, rfl⟩

/-! ### Garbage collection -/

theorem mem_garbageCollection : txn ∈ tm.garbageCollection.txnMap ↔
    txn ∈ tm.txnMap ∧ ¬(txn.isFinished = true ∧ txn.startTs ≤ tm.runningTxns.watermark) := by
  cases h : txn.isFinished <;> simp [garbageCollection, List.mem_filter, h]

theorem Ids.garbageCollection (h : tm.Ids) : tm.garbageCollection.Ids where
  next := h.next
  bounds txn htxn := h.bounds txn (mem_garbageCollection.mp htxn).1
  start_lt txn htxn := h.start_lt txn (mem_garbageCollection.mp htxn).1
  id_inj a ha b hb := h.id_inj a (mem_garbageCollection.mp ha).1 b (mem_garbageCollection.mp hb).1
  start_inj a ha b hb := h.start_inj a (mem_garbageCollection.mp ha).1 b (mem_garbageCollection.mp hb).1

end TransactionManager
end Rmdb
