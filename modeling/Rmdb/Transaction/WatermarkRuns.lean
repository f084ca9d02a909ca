import Rmdb.Lib.Runs
import Rmdb.Transaction.Invariant
import Mathlib.Data.List.MinMax

/-! The watermark while transactions begin, commit and abort in any order, against the read timestamps of
those that are active. -/
namespace Rmdb.TransactionManager

inductive TxnCall where
  | begin
  | commit (txnId : ℤ)
  | abort (txnId : ℤ)
deriving DecidableEq, Repr

def activeTxn (tm : TransactionManager) (txnId : ℤ) : Option Transaction :=
  (tm.getTransaction txnId).filter (·.isActive)

/-- Only an active transaction is ended. -/
def call : TxnCall → TransactionManager → Option TransactionManager
  | .begin, tm => some tm.begin.2
  | .commit txnId, tm => (tm.activeTxn txnId).map tm.commitTxn
  | .abort txnId, tm => (tm.activeTxn txnId).map fun txn => tm.markAborted txn.txnId txn.startTs

def activeReads (tm : TransactionManager) : List ℤ := (tm.txnMap.filter (·.isActive)).map (·.startTs)

/-- The smallest read timestamp of an active transaction, or the latest commit timestamp. -/
def WatermarkRight (tm : TransactionManager) : Prop :=
  tm.runningTxns.watermark = tm.activeReads.min?.getD tm.lastCommitTs

instance (tm : TransactionManager) : Decidable tm.WatermarkRight := inferInstanceAs (Decidable (_ = _))

/-- A transaction begins while another one is active, or gets the read timestamp 0. -/
def JoinsOthers : TxnCall → TransactionManager → Prop
  | .begin, tm => tm.activeReads ≠ [] ∨ tm.nextTimestamp = 0
  | _, _ => True

/-- What the watermark keeps of the transactions, whether it is right or not. -/
structure Counted (tm : TransactionManager) : Prop extends tm.Ids where
  currentReads : tm.runningTxns.currentReads = tm.activeReads.map fun readTs => (readTs, 1)
  commitTs : tm.runningTxns.commitTs = tm.lastCommitTs
  nonneg : 0 ≤ tm.lastCommitTs
  le_next : tm.lastCommitTs ≤ tm.nextTimestamp
  lt_next : tm.nextTimestamp ≠ 0 → tm.lastCommitTs < tm.nextTimestamp

variable {tm tm' : TransactionManager} {txn : Transaction}

theorem init_counted (nextTimestamp : ℕ) : (init nextTimestamp).Counted := by
  have hle : (0 : ℤ) ≤ nextTimestamp := Int.natCast_nonneg nextTimestamp
  refine ⟨(inv_init nextTimestamp).toIds, rfl, rfl, le_refl (0 : ℤ), hle, fun hne => ?_⟩
  change (nextTimestamp : ℤ) ≠ 0 at hne
  change (0 : ℤ) < nextTimestamp
  omega

theorem Ids.read_lt (h : tm.Ids) {readTs : ℤ} (hread : readTs ∈ tm.activeReads) : readTs < tm.nextTimestamp := by
  obtain ⟨txn, htxn, rfl⟩ := List.mem_map.mp hread
  exact h.start_lt txn (List.mem_of_mem_filter htxn)

theorem activeReads_begin (tm : TransactionManager) :
    tm.begin.2.activeReads = tm.activeReads ++ [tm.nextTimestamp] := by
  simp [activeReads, begin, newTransaction, Transaction.isActive]

/-- The timestamp is counted, and the watermark never rises. -/
theorem Counted.addTxn (h : tm.Counted) : tm.runningTxns.addTxn tm.nextTimestamp =
    { tm.runningTxns with
      currentReads := (tm.activeReads ++ [tm.nextTimestamp]).map fun readTs => (readTs, 1)
      watermark := min tm.nextTimestamp tm.runningTxns.watermark } := by
  have hnew : (tm.runningTxns.currentReads.any fun e => e.1 = tm.nextTimestamp) = false := by
    rw [h.currentReads, List.any_map, List.any_eq_false]
    intro readTs hread
    have hlt := h.toIds.read_lt hread
    simp only [Function.comp_apply, decide_eq_true_eq]
    omega
  have hmin : (if tm.nextTimestamp < tm.runningTxns.watermark then tm.nextTimestamp else tm.runningTxns.watermark) =
      min tm.nextTimestamp tm.runningTxns.watermark := by
    rw [min_def]
    split <;> split <;> omega
  simp only [Watermark.addTxn, hnew, Bool.false_eq_true, if_false, hmin]
  rw [h.currentReads, List.map_append, List.map_singleton]

theorem Counted.begin (h : tm.Counted) : tm.begin.2.Counted := by
  refine ⟨h.toIds.begin, ?_, h.commitTs, h.nonneg, ?_, fun _ => ?_⟩
  · rw [activeReads_begin]
    change (tm.runningTxns.addTxn tm.nextTimestamp).currentReads = _
    rw [h.addTxn]
  · have hle := h.le_next
    change tm.lastCommitTs ≤ tm.nextTimestamp + 1
    omega
  · have hle := h.le_next
    change tm.lastCommitTs < tm.nextTimestamp + 1
    omega

theorem min?_append_of_lt {reads : List ℤ} {least new : ℤ} (hleast : reads.min? = some least) (hlt : least < new) :
    (reads ++ [new]).min? = some least := by
  rw [List.min?_eq_some_iff] at hleast ⊢
  refine ⟨List.mem_append_left _ hleast.1, fun readTs hread => ?_⟩
  rcases List.mem_append.mp hread with hread | hread
  · exact hleast.2 readTs hread
  · exact Int.le_of_lt (List.mem_singleton.mp hread ▸ hlt)

/-- A transaction that joins others, or begins at 0, leaves the watermark right. -/
theorem Counted.begin_right (h : tm.Counted) (hright : tm.WatermarkRight) (hjoins : JoinsOthers .begin tm) :
    tm.begin.2.WatermarkRight := by
  have hwatermark : tm.begin.2.runningTxns.watermark = min tm.nextTimestamp tm.runningTxns.watermark :=
    congrArg Watermark.watermark h.addTxn
  rw [WatermarkRight, hwatermark, activeReads_begin]
  rw [WatermarkRight] at hright
  cases hleast : tm.activeReads.min? with
  | some least =>
    have hlt := h.toIds.read_lt (List.min?_mem hleast)
    rw [hleast, Option.getD_some] at hright
    rw [min?_append_of_lt hleast hlt, Option.getD_some, hright]
    exact min_eq_right (Int.le_of_lt hlt)
  | none =>
    have hnil : tm.activeReads = [] := List.min?_eq_none_iff.mp hleast
    have hzero : tm.nextTimestamp = 0 := hjoins.resolve_left fun hne => hne hnil
    have hnonneg := h.nonneg
    have hle := h.le_next
    rw [hleast, Option.getD_none] at hright
    rw [hnil, hright, List.nil_append, List.min?_singleton, Option.getD_some]
    omega

/-- A transaction that begins alone and later than at 0 does not raise the watermark to its timestamp. -/
theorem Counted.begin_wrong (h : tm.Counted) (hright : tm.WatermarkRight) (halone : ¬JoinsOthers .begin tm) :
    ¬tm.begin.2.WatermarkRight := by
  obtain ⟨hnil, hne⟩ := not_or.mp halone
  have hwatermark : tm.begin.2.runningTxns.watermark = min tm.nextTimestamp tm.runningTxns.watermark :=
    congrArg Watermark.watermark h.addTxn
  have hlt := h.lt_next hne
  rw [not_not] at hnil
  rw [WatermarkRight, hnil] at hright
  change _ = tm.lastCommitTs at hright
  rw [WatermarkRight, hwatermark, activeReads_begin, hnil, hright, List.nil_append, List.min?_singleton,
    Option.getD_some]
  omega

/-- The table after a transaction has ended. -/
structure Ended (tm tm' : TransactionManager) (txn : Transaction) : Prop where
  txnMap : ∃ f : Transaction → Transaction, tm'.txnMap = tm.txnMap.map f ∧
    ∀ cur, (f cur).startTs = cur.startTs ∧ (f cur).isActive = (cur.isActive && cur.txnId != txn.txnId)

theorem activeTxn_spec {txnId : ℤ} (h : tm.activeTxn txnId = some txn) :
    txn ∈ tm.txnMap ∧ txn.isActive = true ∧ txn.txnId = txnId := by
  obtain ⟨hget, hactive⟩ := Option.filter_eq_some_iff.mp h
  obtain ⟨hmem, hid⟩ := mem_of_getTransaction hget
  exact ⟨hmem, hactive, hid⟩

theorem commitTxn_ended (tm : TransactionManager) (txn : Transaction) : Ended tm (tm.commitTxn txn) txn := by
  refine ⟨⟨_, commitTxn_txnMap, fun cur => ?_⟩⟩
  by_cases hid : cur.txnId = txn.txnId
  · rw [if_pos hid]
    simp [hid, Transaction.committedAt, Transaction.isActive]
  · rw [if_neg hid]
    simp [hid]

theorem markAborted_ended (tm : TransactionManager) (txn : Transaction) :
    Ended tm (tm.markAborted txn.txnId txn.startTs) txn := by
  refine ⟨⟨_, markAborted_txnMap, fun cur => ?_⟩⟩
  by_cases hid : cur.txnId = txn.txnId
  · rw [if_pos hid]
    simp [hid, Transaction.isActive]
  · rw [if_neg hid]
    simp [hid]

theorem Ended.activeReads (hend : Ended tm tm' txn) (h : tm.Ids) (hmem : txn ∈ tm.txnMap) :
    tm'.activeReads = tm.activeReads.filter (· ≠ txn.startTs) := by
  obtain ⟨f, hmap, hf⟩ := hend.txnMap
  have hcomp : Transaction.startTs ∘ f = Transaction.startTs := funext fun cur => (hf cur).1
  rw [TransactionManager.activeReads, TransactionManager.activeReads, hmap, List.filter_map, List.map_map, hcomp,
    List.filter_map, List.filter_filter]
  congr 1
  apply List.filter_congr
  intro cur hcur
  have hiff : cur.txnId = txn.txnId ↔ cur.startTs = txn.startTs := by
    constructor
    · exact fun hid => congrArg Transaction.startTs (h.id_inj cur hcur txn hmem hid)
    · exact fun hts => congrArg Transaction.txnId (h.start_inj cur hcur txn hmem hts)
  simp only [Function.comp_apply, (hf cur).2, bne, BEq.beq, hiff]
  by_cases hts : cur.startTs = txn.startTs
  · simp [hts]
  · simp [hts]

/-- What `RemoveTxn` leaves of timestamps that are counted once. -/
theorem removeTxn_spec {w : Watermark} {reads : List ℤ} {readTs : ℤ} (hmem : readTs ∈ reads)
    (hreads : w.currentReads = reads.map fun readTs => (readTs, 1)) :
    let rest := reads.filter (· ≠ readTs)
    w.removeTxn readTs = { w with
      currentReads := rest.map fun readTs => (readTs, 1)
      watermark := if readTs = w.watermark then rest.min?.getD w.commitTs else w.watermark } := by
  intro rest
  have hfirst : (reads.find? fun read => read = readTs) = some readTs := by
    have hsome : (reads.find? fun read => read = readTs).isSome := by
      rw [List.find?_isSome]
      exact ⟨readTs, hmem, decide_eq_true rfl⟩
    obtain ⟨read, hread⟩ := Option.isSome_iff_exists.mp hsome
    have heq : read = readTs := by
      have hfound := List.find?_some hread
      exact of_decide_eq_true hfound
    rw [hread, heq]
  have hfind : (w.currentReads.find? fun e => e.1 = readTs) = some (readTs, 1) := by
    rw [hreads, List.find?_map]
    exact congrArg (Option.map _) hfirst
  have hfilter : (w.currentReads.filter fun e => e.1 ≠ readTs) = rest.map fun readTs => (readTs, 1) := by
    rw [hreads, List.filter_map]
    rfl
  have hkeys : (rest.map fun readTs => (readTs, 1)).map (fun e : ℤ × ℕ => e.1) = rest := by
    rw [List.map_map]
    exact List.map_id rest
  simp only [Watermark.removeTxn, hfind, if_true, hfilter, Watermark.firstRead, hkeys]
  split <;> rfl

theorem min?_filter_ne {reads : List ℤ} {least readTs : ℤ} (hleast : reads.min? = some least)
    (hne : readTs ≠ least) : (reads.filter (· ≠ readTs)).min? = some least := by
  rw [List.min?_eq_some_iff] at hleast ⊢
  refine ⟨List.mem_filter.mpr ⟨hleast.1, decide_eq_true hne.symm⟩, fun read hread => ?_⟩
  exact hleast.2 read (List.mem_of_mem_filter hread)

/-- The watermark rises to the next timestamp when the oldest reader leaves. -/
theorem removeTxn_right {w : Watermark} {reads : List ℤ} {readTs idleTs : ℤ} (hmem : readTs ∈ reads)
    (hreads : w.currentReads = reads.map fun readTs => (readTs, 1)) (hright : w.watermark = reads.min?.getD idleTs) :
    (w.removeTxn readTs).watermark = (reads.filter (· ≠ readTs)).min?.getD w.commitTs := by
  rw [removeTxn_spec hmem hreads]
  obtain ⟨least, hleast⟩ := Option.isSome_iff_exists.mp (List.isSome_min?_of_mem hmem)
  rw [hleast, Option.getD_some] at hright
  by_cases heq : readTs = w.watermark
  · exact if_pos heq
  · refine (if_neg heq).trans ?_
    rw [min?_filter_ne hleast (hright ▸ heq), Option.getD_some, hright]

theorem Ids.start_mem (hmem : txn ∈ tm.txnMap) (hactive : txn.isActive = true) : txn.startTs ∈ tm.activeReads :=
  List.mem_map_of_mem (List.mem_filter.mpr ⟨hmem, hactive⟩)

theorem Counted.reads_ne_nil (h : tm.Counted) (hmem : txn ∈ tm.txnMap) (hactive : txn.isActive = true) :
    tm.runningTxns.currentReads.isEmpty = false := by
  rw [h.currentReads, List.isEmpty_eq_false_iff, ne_eq, List.map_eq_nil_iff]
  exact List.ne_nil_of_mem (Ids.start_mem hmem hactive)

/-- The commit of an active transaction. The commit timestamp is noted while the transaction still counts. -/
theorem Counted.commitTxn (h : tm.Counted) (hmem : txn ∈ tm.txnMap) (hactive : txn.isActive = true) :
    (tm.commitTxn txn).Counted ∧ (tm.WatermarkRight → (tm.commitTxn txn).WatermarkRight) := by
  have hreads := (commitTxn_ended tm txn).activeReads h.toIds hmem
  have hstart := Ids.start_mem hmem hactive
  have hle := h.le_next
  have hnonneg := h.nonneg
  have hlast : (tm.commitTxn txn).lastCommitTs = tm.nextTimestamp := max_eq_right hle
  have hnext : (tm.commitTxn txn).nextTimestamp = tm.nextTimestamp + 1 := rfl
  -- The commit timestamp is new, and the timestamps that are read at are those from before.
  obtain ⟨w, hw, hcommitTs, hwatermark, hcurrent⟩ : ∃ w, tm.runningTxns.updateCommitTs tm.nextTimestamp = w ∧
      w.commitTs = tm.nextTimestamp ∧ w.watermark = tm.runningTxns.watermark ∧
      w.currentReads = tm.activeReads.map fun readTs => (readTs, 1) := by
    rw [Watermark.updateCommitTs, h.reads_ne_nil hmem hactive]
    exact ⟨_, rfl, rfl, rfl, h.currentReads⟩
  have hrunning : (tm.commitTxn txn).runningTxns = w.removeTxn txn.startTs :=
    congrArg (fun w : Watermark => w.removeTxn txn.startTs) hw
  refine ⟨⟨h.toIds.commitTxn, ?_, ?_, ?_, ?_, ?_⟩, fun hright => ?_⟩
  · rw [hrunning, removeTxn_spec hstart hcurrent, hreads]
  · rw [hrunning, removeTxn_spec hstart hcurrent, hlast]
    exact hcommitTs
  · rw [hlast]
    omega
  · rw [hlast, hnext]
    omega
  · rw [hlast, hnext]
    omega
  · rw [WatermarkRight, hrunning, hreads, hlast, ← hcommitTs]
    exact removeTxn_right hstart hcurrent (hwatermark.trans hright)

theorem Counted.markAborted (h : tm.Counted) (hmem : txn ∈ tm.txnMap) (hactive : txn.isActive = true) :
    (tm.markAborted txn.txnId txn.startTs).Counted ∧
      (tm.WatermarkRight → (tm.markAborted txn.txnId txn.startTs).WatermarkRight) := by
  have hreads := (markAborted_ended tm txn).activeReads h.toIds hmem
  have hstart := Ids.start_mem hmem hactive
  have hrunning : (tm.markAborted txn.txnId txn.startTs).runningTxns = tm.runningTxns.removeTxn txn.startTs := rfl
  refine ⟨⟨h.toIds.markAborted, ?_, ?_, h.nonneg, h.le_next, h.lt_next⟩, fun hright => ?_⟩
  · rw [hrunning, removeTxn_spec hstart h.currentReads, hreads]
  · rw [hrunning, removeTxn_spec hstart h.currentReads]
    exact h.commitTs
  · have hremoved := removeTxn_right hstart h.currentReads hright
    rw [WatermarkRight, hrunning, hreads, hremoved, h.commitTs]
    rfl

/-- In whatever order transactions begin, commit and abort, the watermark is right all along just when each of
them begins while another one is active; the first may begin at the timestamp 0. -/
theorem watermark_along_iff (nextTimestamp : ℕ) (calls : List TxnCall) :
    Runs.Along call (fun _ _ tm => tm.WatermarkRight) calls (init nextTimestamp) ↔
      Runs.AllMeet call JoinsOthers calls (init nextTimestamp) := by
  have hinit : (init nextTimestamp).Counted ∧ (init nextTimestamp).WatermarkRight :=
    ⟨init_counted nextTimestamp, rfl⟩
  have hgood : ∀ tm c tm', tm.Counted ∧ tm.WatermarkRight → JoinsOthers c tm → call c tm = some tm' →
      tm'.WatermarkRight ∧ tm'.Counted ∧ tm'.WatermarkRight := by
    intro tm c tm' ⟨hcounted, hright⟩ hjoins hcall
    cases c with
    | begin =>
      obtain rfl := Option.some.inj hcall
      have hbegun := hcounted.begin_right hright hjoins
      exact ⟨hbegun, hcounted.begin, hbegun⟩
    | commit txnId =>
      obtain ⟨txn, htxn, rfl⟩ := Option.map_eq_some_iff.mp hcall
      obtain ⟨hmem, hactive, _⟩ := activeTxn_spec htxn
      obtain ⟨hcounted', hright'⟩ := hcounted.commitTxn hmem hactive
      exact ⟨hright' hright, hcounted', hright' hright⟩
    | abort txnId =>
      obtain ⟨txn, htxn, rfl⟩ := Option.map_eq_some_iff.mp hcall
      obtain ⟨hmem, hactive, _⟩ := activeTxn_spec htxn
      obtain ⟨hcounted', hright'⟩ := hcounted.markAborted hmem hactive
      exact ⟨hright' hright, hcounted', hright' hright⟩
  have hbad : ∀ tm c, tm.Counted ∧ tm.WatermarkRight → ¬JoinsOthers c tm →
      ∃ tm', call c tm = some tm' ∧ ¬tm'.WatermarkRight := by
    intro tm c ⟨hcounted, hright⟩ hnot
    cases c with
    | begin => exact ⟨tm.begin.2, rfl, hcounted.begin_wrong hright hnot⟩
    | commit _ => exact absurd trivial hnot
    | abort _ => exact absurd trivial hnot
  exact Runs.along_iff hgood hbad hinit

/-- A transaction commits at 1, and one that begins at 2 on the idle system leaves the watermark at 1. -/
theorem watermark_stays : ∃ tm, Runs.run call [.begin, .commit 0, .begin] (init 0) = some tm ∧
    tm.activeReads = [2] ∧ tm.runningTxns.watermark = 1 ∧ ¬tm.WatermarkRight := by
  obtain ⟨tm, hrun, hreads, hwatermark⟩ : ∃ tm, Runs.run call [.begin, .commit 0, .begin] (init 0) = some tm ∧
      tm.activeReads = [2] ∧ tm.runningTxns.watermark = 1 := ⟨_, rfl, by decide, by decide⟩
  refine ⟨tm, hrun, hreads, hwatermark, ?_⟩
  rw [WatermarkRight, hreads, hwatermark]
  exact nofun

end Rmdb.TransactionManager
