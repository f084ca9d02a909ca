import Rmdb.System.Run

/-! Transactions that run one after the other: which timestamps the slots carry, and what the
one transaction that is active finds in them. -/
namespace Rmdb

open Database TransactionManager

/-- A transaction begins when the one before it has ended. The schema changes between the
transactions. -/
def Serial (db : Database) : Action → Prop
  | .begin | .createTable _ _ | .dropTable _ | .createIndex _ _ _ =>
    ∀ txn ∈ db.store.txnMgr.txnMap, txn.isActive = false
  | .stmt _ _ | .commit _ | .abort _ => True
  | .markAborted _ | .rollbackOne _ | .garbageCollection => False

instance (db : Database) (action : Action) : Decidable (Serial db action) :=
  match action with
  | .begin | .createTable _ _ | .dropTable _ | .createIndex _ _ _ => by dsimp only [Serial]; infer_instance
  | .stmt _ _ | .commit _ | .abort _ => isTrue trivial
  | .markAborted _ | .rollbackOne _ | .garbageCollection => isFalse id

/-- A timestamp that a record can carry: that of an initial row, or one of a transaction's. -/
def TransactionManager.Issued (tm : TransactionManager) (ts : ℤ) : Prop :=
  ts = 0 ∨ ∃ txn ∈ tm.txnMap, txn.startTs = ts ∨ txn.state = .committed ∧ txn.commitTs = ts

theorem TransactionManager.Grows.issued {tm tm' : TransactionManager} {ts : ℤ} (h : tm.Grows tm')
    (hts : tm.Issued ts) : tm'.Issued ts := by
  rcases hts with hzero | ⟨old, hold, hts⟩
  · exact .inl hzero
  · obtain ⟨new, hnew, -, hstart, hfin⟩ := h.keeps old hold
    refine .inr ⟨new, hnew, ?_⟩
    rcases hts with hts | ⟨hstate, hts⟩
    · exact .inl (hstart.trans hts)
    · obtain ⟨hstate', hcommit⟩ := hfin (by simp [Transaction.isActive, hstate])
      exact .inr ⟨hstate'.trans hstate, hcommit.trans hts⟩

namespace Store

variable {s s' s₀ : Store} {txn : Transaction} {tab : String} {rid : Rid} {rec_ : RmRecord}

/-- All others had ended before the active transaction began. -/
def Alone (s : Store) (txn : Transaction) : Prop :=
  ∀ other ∈ s.txnMgr.txnMap, other.txnId ≠ txn.txnId →
    other.isActive = false ∧ other.startTs < txn.startTs ∧
      (other.state = .committed → other.commitTs < txn.startTs)

structure Serialized (s : Store) : Prop where
  inv : s.txnMgr.Inv
  next : 0 ≤ s.txnMgr.nextTimestamp
  nonneg : ∀ txn ∈ s.txnMgr.txnMap, 0 ≤ txn.startTs
  alone : ∀ txn ∈ s.txnMgr.txnMap, txn.isActive = true → s.Alone txn
  slots : ∀ tab rid rec_, s.slot tab rid = some rec_ → s.txnMgr.Issued rec_.tupleMeta.ts
  pending : ∀ txn ∈ s.txnMgr.txnMap, txn.isActive = true → s.Undoable txn.writeSet ∧
    ∀ w ∈ txn.writeSet, s.txnMgr.Issued w.record.tupleMeta.ts

theorem Serialized.issued_bounds {ts : ℤ} (h : s.Serialized) (hts : s.txnMgr.Issued ts) :
    ts = 0 ∨ 0 ≤ ts ∧ ts < s.txnMgr.nextTimestamp := by
  rcases hts with hzero | ⟨txn, htxn, hts⟩
  · exact .inl hzero
  · have hstart := h.nonneg txn htxn
    have hlt := h.inv.start_lt txn htxn
    rcases hts with hts | ⟨hstate, hts⟩
    · exact .inr (by omega)
    · have hcommit := h.inv.committed txn htxn hstate
      exact .inr (by omega)

theorem Serialized.hasTupleMeta (h : s.Serialized) (hslot : s.slot tab rid = some rec_) :
    s.txnMgr.hasTupleMeta rec_.tupleMeta = true := by
  simp only [TransactionManager.hasTupleMeta, Bool.or_eq_true, Bool.and_eq_true, decide_eq_true_eq]
  have hbounds := h.issued_bounds (h.slots tab rid rec_ hslot)
  omega

/-! ### Statements -/

/-- A step that writes at most one slot, under the start timestamp of its transaction or with
zeros, and records at most what was in it. -/
private theorem Serialized.write {log : UndoLog} {ws : List WriteRecord} (h : s.Serialized)
    (hruns : s.Runs txn) (hlogged : s.txnMgr.Logged s'.txnMgr txn.txnId log ws)
    (hslots : ∀ t r rec', s'.slot t r = some rec' →
      s.slot t r = some rec' ∨ rec'.tupleMeta.ts = txn.startTs ∨ rec'.tupleMeta.ts = 0)
    (hpage : ∀ t p, s.hasPage t p → s'.hasPage t p)
    (hws : ∀ w ∈ ws, w.wtype ≠ .insertTuple ∧ s.hasPage w.tabName w.rid.pageNo ∧
      s.slot w.tabName w.rid = some w.record) : s'.Serialized := by
  have hgrows := hlogged.inert.grows
  obtain ⟨cur, hcur, hid, hstart, -⟩ := hruns.mem
  refine ⟨hlogged.inert.inv h.inv, hlogged.inert.nextTimestamp ▸ h.next, ?_, ?_, ?_, ?_⟩
  · intro new hnew
    obtain ⟨old, hold, -, hstart', -⟩ := hlogged.mem_fields hnew
    exact hstart' ▸ h.nonneg old hold
  · intro new hnew hactive other hother hne
    obtain ⟨old, hold, hid', hstart', hstate', -⟩ := hlogged.inert.mem hnew
    obtain ⟨old', hold', hid'', hstart'', hstate'', hcommit''⟩ := hlogged.inert.mem hother
    have halone := h.alone old hold (isActive_congr hstate' ▸ hactive) old' hold'
      (by rwa [← hid', ← hid''])
    rw [isActive_congr hstate'', hstart'', hstart', hstate'', hcommit'']
    exact halone
  · intro t r rec' hrec
    rcases hslots t r rec' hrec with hsame | hown | hzero
    · exact hgrows.issued (h.slots t r rec' hsame)
    · exact hgrows.issued (.inr ⟨cur, hcur, .inl (hstart.trans hown.symm)⟩)
    · exact .inl hzero
  · intro new hnew hactive
    obtain ⟨old, hold, -, -, hstate', hwrites⟩ := hlogged.mem_fields hnew
    obtain ⟨hundo, hissued⟩ := h.pending old hold (isActive_congr hstate' ▸ hactive)
    have hmem : ∀ w ∈ new.writeSet, w ∈ old.writeSet ∨ w ∈ ws := by
      intro w hw
      rw [hwrites] at hw
      rcases List.mem_append.mp hw with hw | hw
      · exact .inl hw
      · split at hw
        · exact .inr hw
        · cases hw
    constructor
    · intro w hw
      rcases hmem w hw with hw | hw
      · exact ⟨(hundo w hw).1, hpage _ _ (hundo w hw).2⟩
      · exact ⟨(hws w hw).1, hpage _ _ (hws w hw).2.1⟩
    · intro w hw
      rcases hmem w hw with hw | hw
      · exact hgrows.issued (hissued w hw)
      · exact hgrows.issued (h.slots _ _ _ (hws w hw).2.2)

theorem Serialized.stmtStep {tabs : String → Option TabMeta} {target : Rid → Prop}
    {inserting : Prop} (h : s.Serialized) (hstep : StmtStep tabs txn tab target inserting s₀ s s') :
    s'.Serialized := by
  have put_slots : ∀ {rid rec_ used}, s.Put s' tab rid rec_ used →
      rec_.tupleMeta.ts = txn.startTs ∨ rec_.tupleMeta.ts = 0 → ∀ t r rec', s'.slot t r = some rec' →
      s.slot t r = some rec' ∨ rec'.tupleMeta.ts = txn.startTs ∨ rec'.tupleMeta.ts = 0 := by
    intro rid rec_ used hput hts t r rec' hrec
    rw [hput.slot] at hrec
    split at hrec
    · exact .inr (Option.some.inj hrec ▸ hts)
    · exact .inl hrec
  cases hstep.outcome with
  | notInserted runs logged slots =>
    exact h.write runs logged (fun t r _ hrec => .inl (slots.slot t r ▸ hrec)) slots.hasPage (List.forall_mem_nil _)
  | inserted inserting first runs file target slotNo free logged put =>
    exact h.write runs logged (put_slots put (.inl rfl)) put.hasPage (List.forall_mem_nil _)
  | refused inserting first runs file target slotNo free logged put =>
    exact h.write runs logged (put_slots put (.inr rfl)) put.hasPage (List.forall_mem_nil _)
  | logged may htab target logged slots =>
    exact h.write may.runs logged (fun t r _ hrec => .inl (slots.slot t r ▸ hrec)) slots.hasPage (List.forall_mem_nil _)
  | overwritten may htab target write logged put =>
    rename_i fh tabMeta rid old wtype log rec_
    have hpage := (RmFileHandle.getRecordMvcc_page may.visible).2
    refine h.write may.runs logged (put_slots put ?_) put.hasPage fun w hw => ?_
    · cases write <;> exact .inl rfl
    · obtain rfl := List.mem_singleton.mp hw
      refine ⟨?_, (hasPage_iff may.file).mpr hpage, slot_eq may.file⟩
      cases write <;> simp

theorem Serialized.stmtSteps {tabs : String → Option TabMeta} {target : Rid → Prop}
    {inserting : Prop} (h : s.Serialized)
    (hsteps : StmtSteps tabs txn tab target inserting s₀ s s') : s'.Serialized := by
  induction hsteps with
  | refl => exact h
  | tail _ hstep ih => exact ih.stmtStep hstep

/-! ### Begin, commit and abort -/

theorem Serialized.begin (h : s.Serialized)
    (hnone : ∀ txn ∈ s.txnMgr.txnMap, txn.isActive = false) : s.begin.Serialized := by
  have hnew : ∀ txn ∈ s.begin.txnMgr.txnMap, txn.isActive = true → txn = s.txnMgr.newTransaction := by
    intro txn htxn hactive
    rcases mem_begin.mp htxn with htxn | rfl
    · rw [hnone txn htxn] at hactive
      cases hactive
    · rfl
  have hnext := h.next
  refine ⟨h.inv.begin, ?_, ?_, ?_, ?_, ?_⟩
  · change 0 ≤ s.txnMgr.nextTimestamp + 1
    omega
  · intro txn htxn
    rcases mem_begin.mp htxn with htxn | rfl
    · exact h.nonneg txn htxn
    · exact hnext
  · intro txn htxn hactive other hother hne
    obtain rfl := hnew txn htxn hactive
    rcases mem_begin.mp hother with hother | rfl
    · exact ⟨hnone other hother, h.inv.start_lt other hother,
        fun hstate => (h.inv.committed other hother hstate).2.1⟩
    · exact absurd rfl hne
  · intro tab rid rec_ hrec
    exact (grows_begin s.txnMgr).issued (h.slots tab rid rec_ hrec)
  · intro txn htxn hactive
    obtain rfl := hnew txn htxn hactive
    exact ⟨fun w hw => absurd hw List.not_mem_nil, fun w hw => absurd hw List.not_mem_nil⟩

/-- Nobody is active once the only active transaction has ended. -/
theorem Serialized.ended (h : s.Serialized) (hmem : txn ∈ s.txnMgr.txnMap)
    (hactive : txn.isActive = true) (hinv : s'.txnMgr.Inv) (hgrows : s.txnMgr.Grows s'.txnMgr)
    (hended : ∀ new ∈ s'.txnMgr.txnMap, ∃ old ∈ s.txnMgr.txnMap, new.startTs = old.startTs ∧
      (new = old ∧ old.txnId ≠ txn.txnId ∨ new.isActive = false))
    (hslots : ∀ t r rec', s'.slot t r = some rec' → s'.txnMgr.Issued rec'.tupleMeta.ts) :
    s'.Serialized ∧ ∀ new ∈ s'.txnMgr.txnMap, new.isActive = false := by
  have hnone : ∀ new ∈ s'.txnMgr.txnMap, new.isActive = false := by
    intro new hnew
    obtain ⟨old, hold, -, ⟨rfl, hne⟩ | hfin⟩ := hended new hnew
    · exact (h.alone txn hmem hactive new hold hne).1
    · exact hfin
  refine ⟨⟨hinv, h.next.trans hgrows.nextTimestamp, ?_, ?_, hslots, ?_⟩, hnone⟩
  · intro new hnew
    obtain ⟨old, hold, hstart, -⟩ := hended new hnew
    exact hstart ▸ h.nonneg old hold
  · intro new hnew hact
    rw [hnone new hnew] at hact
    cases hact
  · intro new hnew hact
    rw [hnone new hnew] at hact
    cases hact

theorem Serialized.commit (h : s.Serialized) (hmem : txn ∈ s.txnMgr.txnMap)
    (hactive : txn.isActive = true) :
    (s.commit txn).Serialized ∧ ∀ new ∈ (s.commit txn).txnMgr.txnMap, new.isActive = false := by
  have htxnMgr : (s.commit txn).txnMgr = s.txnMgr.commitTxn txn := commit_txnMgr
  have hgrows : s.txnMgr.Grows (s.commit txn).txnMgr := htxnMgr ▸ h.inv.grows_commit hmem hactive
  refine h.ended hmem hactive (htxnMgr ▸ h.inv.commitTxn hmem rfl hactive) hgrows ?_ ?_
  · intro new hnew
    rw [htxnMgr] at hnew
    obtain ⟨old, hold, ⟨hne, rfl⟩ | ⟨-, rfl⟩⟩ := mem_commitTxn hnew
    · exact ⟨new, hold, rfl, .inl ⟨rfl, hne⟩⟩
    · exact ⟨old, hold, rfl, .inr rfl⟩
  · intro t r rec' hrec
    rcases commit_slot s txn t r with ⟨hsame, -⟩ | ⟨rec_, hold, -, hnew⟩
    · exact hgrows.issued (h.slots t r rec' (hsame ▸ hrec))
    · obtain rfl := Option.some.inj (hnew.symm.trans hrec)
      refine .inr ⟨txn.committedAt s.txnMgr.nextTimestamp, ?_, .inr ⟨rfl, rfl⟩⟩
      rw [htxnMgr]
      exact commitTxn_mem_self hmem rfl

theorem Serialized.abort (h : s.Serialized) (hmem : txn ∈ s.txnMgr.txnMap)
    (hactive : txn.isActive = true) (habort : s.abort txn = some s') (hinv : s'.txnMgr.Inv)
    (hgrows : s.txnMgr.Grows s'.txnMgr) :
    s'.Serialized ∧ ∀ new ∈ s'.txnMgr.txnMap, new.isActive = false := by
  obtain ⟨hundo, hissued⟩ := h.pending txn hmem hactive
  obtain ⟨hrolled, htxnMgr⟩ := abort_spec (h.inv.getTransaction hmem) hundo habort
  refine h.ended hmem hactive hinv hgrows ?_ ?_
  · intro new hnew
    rw [htxnMgr] at hnew
    obtain ⟨mid, hmid, rfl⟩ := mem_modifyTxn hnew
    obtain ⟨old, hold, ⟨hne, rfl⟩ | ⟨hid, rfl⟩⟩ := mem_markAborted hmid
    · rw [if_neg hne]
      exact ⟨mid, hold, rfl, .inl ⟨rfl, hne⟩⟩
    · rw [if_pos hid]
      exact ⟨old, hold, rfl, .inr rfl⟩
  · intro t r rec' hrec
    rw [hrolled.slot] at hrec
    cases hfind : txn.writeSet.find? (·.isAt t r) with
    | none =>
      rw [hfind] at hrec
      exact hgrows.issued (h.slots t r rec' hrec)
    | some w =>
      rw [hfind] at hrec
      obtain rfl := Option.some.inj hrec
      exact hgrows.issued (hissued w (List.mem_of_find?_eq_some hfind))

theorem Serialized.setTable {fh : Option RmFileHandle} (h : s.Serialized)
    (hnone : ∀ txn ∈ s.txnMgr.txnMap, txn.isActive = false)
    (hfh : ∀ f, fh = some f → ∀ r, (f.record r).tupleMeta.ts = 0) : (s.setTable tab fh).Serialized := by
  refine ⟨h.inv, h.next, h.nonneg, h.alone, ?_, ?_⟩
  · intro t r rec' hrec
    simp only [Store.setTable, Store.slot, Function.update_apply] at hrec
    split at hrec
    · obtain ⟨f, hf, rfl⟩ := Option.map_eq_some_iff.mp hrec
      exact .inl (hfh f hf r)
    · exact h.slots t r rec' hrec
  · intro txn htxn hactive
    rw [hnone txn htxn] at hactive
    cases hactive

end Store

namespace Database

variable {db db' : Database} {txnId : ℤ} {txn : Transaction}

theorem Started.serialized {n : ℤ} (h : db.Started n)
    (hfresh : ∀ tab rid rec_, db.store.slot tab rid = some rec_ → rec_.tupleMeta.ts = 0) :
    db.store.Serialized := by
  have hempty : db.store.txnMgr.txnMap = [] := by rw [h.txnMgr]; rfl
  refine ⟨h.inv, ?_, ?_, ?_, fun tab rid rec_ hrec => .inl (hfresh tab rid rec_ hrec), ?_⟩
  · rw [h.txnMgr]
    exact h.nonneg
  all_goals
    intro txn htxn
    rw [hempty] at htxn
    cases htxn

theorem serialized_step {action : Action} (hstep : db.step action = some db')
    (hserial : Serial db action) (h : db.store.Serialized) : db'.store.Serialized := by
  have hgc : action ≠ .garbageCollection := by
    rintro rfl
    exact hserial
  obtain ⟨hinv, hgrows⟩ := step_inv hstep hgc h.inv
  cases action with
  | begin =>
    cases hstep
    exact h.begin hserial
  | stmt txnId stmt =>
    obtain ⟨txn, -, -, hsteps⟩ := step_stmt hstep
    exact h.stmtSteps hsteps
  | commit txnId =>
    obtain ⟨txn, htxn, rfl⟩ := step_commit hstep
    obtain ⟨hmem, -, hactive⟩ := activeTxn_mem htxn
    exact (h.commit hmem hactive).1
  | abort txnId =>
    obtain ⟨txn, store, htxn, habort, rfl⟩ := step_abort hstep
    obtain ⟨hmem, -, hactive⟩ := activeTxn_mem htxn
    exact (h.abort hmem hactive habort hinv hgrows).1
  | markAborted txnId => exact hserial.elim
  | rollbackOne txnId => exact hserial.elim
  | garbageCollection => exact hserial.elim
  | createTable tab colDefs =>
    rcases step_createTable hstep with rfl | ⟨-, recordSize, hstore⟩
    · exact h
    · rw [hstore]
      refine h.setTable hserial fun f hf r => ?_
      obtain rfl := Option.some.inj hf
      unfold RmFileHandle.record
      split <;> rfl
  | dropTable tab =>
    rcases step_dropTable hstep with hsame | hstore
    · rw [hsame]
      exact h
    · rw [hstore]
      exact h.setTable hserial nofun
  | createIndex tab colNames unique =>
    rw [step_createIndex hstep]
    exact h

theorem serialized_reaches {allowed : Database → Action → Prop}
    (hallowed : ∀ db action, allowed db action → Serial db action) (h : db.store.Serialized)
    (hreach : db.Reaches allowed db') : db'.store.Serialized := by
  induction hreach with
  | refl => exact h
  | tail _ hstep ih =>
    obtain ⟨action, hok, hstep⟩ := hstep
    exact serialized_step hstep (hallowed _ _ hok) ih

end Database
end Rmdb
