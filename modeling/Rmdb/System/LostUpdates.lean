import Rmdb.System.CommittedEffects
import Rmdb.System.OwnWrites

/-! Writers of one slot that both commit are not concurrent: the stamp that a committed writer
leaves in a slot stops everybody who started before its commit. -/
namespace Rmdb

open Database

/-- No INSERT takes a free slot that any transaction has in its write set. -/
def TakesFresh (db : Database) : Action → Prop
  | .stmt txnId stmt => ∀ txn ∈ db.activeTxn txnId, stmt.isInsert → ∀ rid ∈ stmt.targets db txn,
    ∀ other ∈ db.store.txnMgr.txnMap, ¬other.hasWritten stmt.tab rid
  | _ => True

instance (db : Database) (action : Action) : Decidable (TakesFresh db action) :=
  match action with
  | .stmt _ _ => by dsimp only [TakesFresh]; infer_instance
  | .begin | .commit _ | .abort _ | .markAborted _ | .rollbackOne _ | .garbageCollection | .createTable _ _
  | .dropTable _ | .createIndex _ _ _ => isTrue trivial

theorem TakesFresh.unwritten {db : Database} {action : Action} (h : TakesFresh db action) :
    TakesUnwritten db action := by
  cases action with
  | stmt txnId stmt => exact fun txn htxn hins rid hrid other hother _ => h txn htxn hins rid hrid other hother
  | _ => trivial

namespace Store

variable {s s' : Store} {tab : String} {rid : Rid} {txn : Transaction}

/-- The transaction has updated or deleted the row in a slot. -/
def Overwrote (s : Store) (txn : Transaction) (tab : String) (rid : Rid) : Prop :=
  ∃ w ∈ s.history, w.txnId = txn.txnId ∧ w.tab = tab ∧ w.rid = rid ∧
    (w.kind = .update ∨ w.kind = .delete)

instance (s : Store) (txn : Transaction) (tab : String) (rid : Rid) :
    Decidable (s.Overwrote txn tab rid) := inferInstanceAs (Decidable (∃ w ∈ s.history, _))

/-- A timestamp that stops every writer that started before the commit of `txn`. -/
structure Bars (s : Store) (txn : Transaction) (ts : ℤ) : Prop where
  late : txn.commitTs ≤ ts ∧ ts ∉ s.txnMgr.abortedTxns ∨ ts = txn.startTs
  lt : ts < s.txnMgr.nextTimestamp

/-- Two writers of a slot, one of them committed and the other one committed or active, are not
concurrent, and the slot is barred for everybody else. -/
structure FirstWins (s : Store) : Prop where
  writes : ∀ w ∈ s.history, w.kind = .update ∨ w.kind = .delete → ∀ txn ∈ s.txnMgr.txnMap,
    txn.txnId = w.txnId → txn.state ≠ .aborted → txn.hasWritten w.tab w.rid
  serial : ∀ a ∈ s.txnMgr.txnMap, ∀ b ∈ s.txnMgr.txnMap, a.state = .committed → b.state = .committed →
    a.txnId ≠ b.txnId → ∀ tab rid, a.hasWritten tab rid → b.hasWritten tab rid →
    a.commitTs < b.startTs ∨ b.commitTs < a.startTs
  later : ∀ a ∈ s.txnMgr.txnMap, ∀ b ∈ s.txnMgr.txnMap, a.state = .committed → b.isActive = true →
    ∀ tab rid, a.hasWritten tab rid → b.hasWritten tab rid → a.commitTs < b.startTs
  slot : ∀ a ∈ s.txnMgr.txnMap, a.state = .committed → ∀ tab rid, a.hasWritten tab rid →
    ∀ rec_, s.slot tab rid = some rec_ → s.Bars a rec_.tupleMeta.ts ∧
      ∀ b ∈ s.txnMgr.txnMap, b.isActive = true → b.startTs = rec_.tupleMeta.ts → b.hasWritten tab rid
  /-- The first image is what a rollback leaves in the slot. -/
  image : ∀ a ∈ s.txnMgr.txnMap, a.state = .committed → ∀ tab rid, a.hasWritten tab rid →
    ∀ b ∈ s.txnMgr.txnMap, b.isActive = true → ∀ w, b.writeSet.find? (·.isAt tab rid) = some w →
      s.Bars a w.record.tupleMeta.ts ∧
      ∀ c ∈ s.txnMgr.txnMap, c.isActive = true → c.startTs ≠ w.record.tupleMeta.ts

theorem Bars.mono {a : Transaction} {ts : ℤ} (h : s.Bars a ts)
    (haborted : ∀ ts ∈ s'.txnMgr.abortedTxns, ts ∈ s.txnMgr.abortedTxns)
    (hnext : s.txnMgr.nextTimestamp ≤ s'.txnMgr.nextTimestamp) : s'.Bars a ts :=
  ⟨h.late.imp_left fun hlate => ⟨hlate.1, fun hts => hlate.2 (haborted _ hts)⟩, h.lt.trans_le hnext⟩

/-- Whoever passes the conflict check has started after the commit. -/
theorem Bars.lt_startTs {a : Transaction} {fh : RmFileHandle} {old : RecordView}
    (h : s.Bars a (fh.record rid).tupleMeta.ts) (hinv : s.txnMgr.Inv) (ha : a ∈ s.txnMgr.txnMap)
    (hstate : a.state = .committed) (hpos : 1 ≤ a.startTs) (hactive : txn.isActive = true)
    (hmay : MayOverwrite s txn tab fh rid old) : a.commitTs < txn.startTs := by
  obtain ⟨cur, hcur, hid, hstart, hst⟩ := hmay.runs.mem
  obtain ⟨hlt, -, -⟩ := hinv.committed a ha hstate
  have hts : 1 ≤ (fh.record rid).tupleMeta.ts := by
    rcases h.late with hlate | hlate
    · exact hpos.trans (hlt.le.trans hlate.1)
    · exact hlate ▸ hpos
  have hne : a.commitTs ≠ txn.startTs := hstart ▸ hinv.commit_ne_start a ha cur hcur hstate
  have hcases := hinv.noConflict_cases (RmFileHandle.getRecordMvcc_page hmay.visible).2
    (hasTupleMeta_of_lt (by omega) h.lt) hcur hid hstart hmay.noConflict
  rcases h.late with ⟨hge, hnot⟩ | heq
  · rcases hcases with hzero | hown | ⟨owner, howner, hts', haborted⟩ |
      ⟨owner, howner, hts', hcommitted, hle⟩ | ⟨-, hle⟩
    · omega
    · omega
    · exact absurd ((hinv.abortedTxns _).mpr ⟨owner, howner, haborted, hts'⟩) hnot
    · have := (hinv.committed owner howner hcommitted).1
      omega
    · omega
  · rcases hcases with hzero | hown | ⟨owner, howner, hts', haborted⟩ |
      ⟨owner, howner, hts', hcommitted, hle⟩ | ⟨hnone, -⟩
    · omega
    · have hsame := hinv.start_inj a ha cur hcur (heq.symm.trans (hown.trans hstart.symm))
      rw [← TransactionManager.isActive_congr hst, ← hsame] at hactive
      simp [Transaction.isActive, hstate] at hactive
    · rw [hinv.start_inj owner howner a ha (hts'.trans heq), hstate] at haborted
      cases haborted
    · rw [hinv.start_inj owner howner a ha (hts'.trans heq)] at hle
      omega
    · exact absurd heq.symm (hnone a ha)

theorem Owned.holds_written (h : s.Owned) (htxn : txn ∈ s.txnMgr.txnMap) (hstate : txn.state ≠ .committed)
    (hwritten : txn.hasWritten tab rid) : ∃ rec_, s.Holds txn tab rid rec_ := by
  obtain ⟨w, hw, rfl, rfl⟩ := hwritten
  exact (h.pending txn htxn hstate w hw).2

/-! ### Steps that write no slot with a history -/

/-- The same transaction, perhaps with more undo logs. -/
private structure Kept (old new : Transaction) : Prop where
  id : new.txnId = old.txnId
  startTs : new.startTs = old.startTs
  commitTs : new.commitTs = old.commitTs
  state : new.state = old.state
  writeSet : new.writeSet = old.writeSet

private theorem Kept.hasWritten {old new : Transaction} (h : Kept old new)
    (hw : new.hasWritten tab rid) : old.hasWritten tab rid := by
  simpa only [Transaction.hasWritten, h.writeSet] using hw

private theorem Kept.bars {old new : Transaction} {ts : ℤ} (h : Kept old new) (hb : s.Bars old ts) :
    s.Bars new ts :=
  ⟨by rw [h.startTs, h.commitTs]; exact hb.late, hb.lt⟩

/-- The transactions stay as they are, and new ones have written nothing. -/
private theorem FirstWins.transfer (h : s.FirstWins)
    (hmem : ∀ new ∈ s'.txnMgr.txnMap, (∃ old ∈ s.txnMgr.txnMap, Kept old new) ∨
      new.state ≠ .committed ∧ new.writeSet = [] ∧ s.txnMgr.nextTimestamp ≤ new.startTs ∧
        s.txnMgr.nextTxnId ≤ new.txnId)
    (hids : ∀ w ∈ s.history, w.txnId < s.txnMgr.nextTxnId)
    (haborted : ∀ ts ∈ s'.txnMgr.abortedTxns, ts ∈ s.txnMgr.abortedTxns)
    (hnext : s.txnMgr.nextTimestamp ≤ s'.txnMgr.nextTimestamp)
    (hslots : ∀ t r, (∃ other ∈ s.txnMgr.txnMap, other.hasWritten t r) → s'.slot t r = s.slot t r)
    (hhist : ∀ w ∈ s'.history, w ∈ s.history ∨ w.kind = .insert ∨ w.kind = .undo) : s'.FirstWins := by
  have hwrote : ∀ {new t r}, new ∈ s'.txnMgr.txnMap → new.hasWritten t r →
      ∃ old ∈ s.txnMgr.txnMap, Kept old new ∧ old.hasWritten t r := by
    intro new t r hnew hw
    rcases hmem new hnew with ⟨old, hold, hkept⟩ | ⟨-, hnil, -⟩
    · exact ⟨old, hold, hkept, hkept.hasWritten hw⟩
    · obtain ⟨w, hw, -⟩ := hw
      rw [hnil] at hw
      cases hw
  refine ⟨fun w hw hkind new hnew hid hst => ?_, fun a ha b hb hsa hsb hne t r hwa hwb => ?_,
    fun a ha b hb hsa hsb t r hwa hwb => ?_, fun a ha hsa t r hwa rec_ hrec => ?_,
    fun a ha hsa t r hwa b hb hsb w hw => ?_⟩
  · have hw : w ∈ s.history := by
      rcases hhist w hw with hw | hins | hundo
      · exact hw
      · simp [hins] at hkind
      · simp [hundo] at hkind
    rcases hmem new hnew with ⟨old, hold, hkept⟩ | ⟨-, -, -, hlate⟩
    · simp only [Transaction.hasWritten, hkept.writeSet]
      exact h.writes w hw hkind old hold (hkept.id.symm.trans hid) (hkept.state ▸ hst)
    · have := hids w hw
      omega
  · obtain ⟨a₀, ha₀, hka, hwa⟩ := hwrote ha hwa
    obtain ⟨b₀, hb₀, hkb, hwb⟩ := hwrote hb hwb
    rw [hka.commitTs, hka.startTs, hkb.commitTs, hkb.startTs]
    exact h.serial a₀ ha₀ b₀ hb₀ (hka.state ▸ hsa) (hkb.state ▸ hsb) (hka.id ▸ hkb.id ▸ hne) t r hwa hwb
  · obtain ⟨a₀, ha₀, hka, hwa⟩ := hwrote ha hwa
    obtain ⟨b₀, hb₀, hkb, hwb⟩ := hwrote hb hwb
    rw [hka.commitTs, hkb.startTs]
    exact h.later a₀ ha₀ b₀ hb₀ (hka.state ▸ hsa)
      (TransactionManager.isActive_congr hkb.state ▸ hsb) t r hwa hwb
  · obtain ⟨a₀, ha₀, hka, hwa⟩ := hwrote ha hwa
    rw [hslots t r ⟨a₀, ha₀, hwa⟩] at hrec
    obtain ⟨hbars, hown⟩ := h.slot a₀ ha₀ (hka.state ▸ hsa) t r hwa rec_ hrec
    refine ⟨hka.bars (hbars.mono haborted hnext), fun b hb hsb hts => ?_⟩
    rcases hmem b hb with ⟨b₀, hb₀, hkb⟩ | ⟨-, -, hlate, -⟩
    · simp only [Transaction.hasWritten, hkb.writeSet]
      exact hown b₀ hb₀ (TransactionManager.isActive_congr hkb.state ▸ hsb) (hkb.startTs.symm.trans hts)
    · have := hbars.lt
      omega
  · obtain ⟨a₀, ha₀, hka, hwa⟩ := hwrote ha hwa
    rcases hmem b hb with ⟨b₀, hb₀, hkb⟩ | ⟨-, hnil, -⟩
    · rw [hkb.writeSet] at hw
      obtain ⟨hbars, hown⟩ := h.image a₀ ha₀ (hka.state ▸ hsa) t r hwa b₀ hb₀
        (TransactionManager.isActive_congr hkb.state ▸ hsb) w hw
      refine ⟨hka.bars (hbars.mono haborted hnext), fun c hc hsc => ?_⟩
      rcases hmem c hc with ⟨c₀, hc₀, hkc⟩ | ⟨-, -, hlate, -⟩
      · rw [hkc.startTs]
        exact hown c₀ hc₀ (TransactionManager.isActive_congr hkc.state ▸ hsc)
      · have := hbars.lt
        omega
    · rw [hnil] at hw
      cases hw

theorem FirstWins.begin (h : s.FirstWins) (howned : s.Owned) : s.begin.FirstWins := by
  refine h.transfer (fun new hnew => ?_) howned.events (fun _ hts => hts) (Int.le_add_one le_rfl)
    (fun _ _ _ => rfl) fun w hw => .inl hw
  rcases TransactionManager.mem_begin.mp hnew with hnew | rfl
  · exact .inl ⟨new, hnew, rfl, rfl, rfl, rfl, rfl⟩
  · exact .inr ⟨by simp [TransactionManager.newTransaction], rfl, le_rfl, le_rfl⟩

/-! ### Statements -/

section stmtStep

variable {tabs : String → Option TabMeta} {target : Rid → Prop} {inserting : Prop} {s₀ : Store}

private theorem FirstWins.unwritten {log : UndoLog} (h : s.FirstWins) (howned : s.Owned)
    (hlogged : s.txnMgr.Logged s'.txnMgr txn.txnId log [])
    (hslots : ∀ t r, (∃ other ∈ s.txnMgr.txnMap, other.hasWritten t r) → s'.slot t r = s.slot t r)
    (hhist : ∀ w ∈ s'.history, w ∈ s.history ∨ w.kind = .insert ∨ w.kind = .undo) : s'.FirstWins := by
  refine h.transfer (fun new hnew => .inl ?_) howned.events
    (fun ts hts => hlogged.inert.abortedTxns ▸ hts) hlogged.inert.nextTimestamp.ge hslots hhist
  obtain ⟨old, hold, ⟨-, rfl⟩ | ⟨-, rfl⟩⟩ := hlogged.mem hnew
  · exact ⟨new, hold, rfl, rfl, rfl, rfl, rfl⟩
  · exact ⟨old, hold, rfl, rfl, rfl, rfl, List.append_nil _⟩

/-- An overwritten slot carries the start timestamp of its writer, who has started after the
commits of all earlier writers. -/
private theorem FirstWins.overwritten {fh : RmFileHandle} {old : RecordView} {wtype : WType}
    {log : UndoLog} {rec_ : RmRecord} {used : Bool} {kind : WriteKind} (h : s.FirstWins)
    (hinv : s.txnMgr.Inv) (hsettled : s.Settled) (hactive : txn.isActive = true)
    (hmay : MayOverwrite s txn tab fh rid old) (hts : rec_.tupleMeta.ts = txn.startTs)
    (hlogged : s.txnMgr.Logged s'.txnMgr txn.txnId log [⟨wtype, tab, rid, fh.record rid⟩])
    (hput : s.Put s' tab rid rec_ used)
    (hhist : s'.history = ⟨txn.txnId, tab, rid, kind, rec_⟩ :: s.history) : s'.FirstWins := by
  obtain ⟨cur, hcur, hid, hstart, hst⟩ := hmay.runs.mem
  have hcur_active := (TransactionManager.isActive_congr hst).trans hactive
  have hfile : s.slot tab rid = some (fh.record rid) := slot_eq hmay.file
  have hmem : ∀ {new}, new ∈ s'.txnMgr.txnMap → new ∈ s.txnMgr.txnMap ∧ new.txnId ≠ txn.txnId ∨
      new = { cur with undoLogs := cur.undoLogs ++ [log],
                       writeSet := cur.writeSet ++ [⟨wtype, tab, rid, fh.record rid⟩] } := by
    intro new hnew
    obtain ⟨old, hold, ⟨hne, rfl⟩ | ⟨heq, rfl⟩⟩ := hlogged.mem hnew
    · exact .inl ⟨hold, hne⟩
    · obtain rfl := hinv.id_inj old hold cur hcur (heq.trans hid.symm)
      exact .inr rfl
  have hcommitted : ∀ {a}, a ∈ s'.txnMgr.txnMap → a.state = .committed → a ∈ s.txnMgr.txnMap := by
    intro a ha hsa
    rcases hmem ha with ⟨ha, -⟩ | rfl
    · exact ha
    · simp [Transaction.isActive, show cur.state = .committed from hsa] at hcur_active
  have hbars : ∀ {a ts}, s.Bars a ts → s'.Bars a ts := fun h =>
    h.mono (fun ts hts => hlogged.inert.abortedTxns ▸ hts) hlogged.inert.nextTimestamp.ge
  have hlater : ∀ a ∈ s.txnMgr.txnMap, a.state = .committed → a.hasWritten tab rid →
      a.commitTs < txn.startTs := fun a ha hsa hwa =>
    (h.slot a ha hsa tab rid hwa _ hfile).1.lt_startTs hinv ha hsa (hsettled.pos a ha) hactive hmay
  have hstarts : ∀ {c}, c ∈ s'.txnMgr.txnMap → c.isActive = true →
      ∃ old ∈ s.txnMgr.txnMap, old.isActive = true ∧ old.startTs = c.startTs := by
    intro c hc hsc
    rcases hmem hc with ⟨hc, -⟩ | rfl
    · exact ⟨c, hc, hsc, rfl⟩
    · exact ⟨cur, hcur, hsc, rfl⟩
  refine ⟨fun w hw hkind new hnew hid' hst' => ?_, fun a ha b hb hsa hsb hne t r hwa hwb => ?_,
    fun a ha b hb hsa hsb t r hwa hwb => ?_, fun a ha hsa t r hwa rec' hrec => ?_,
    fun a ha hsa t r hwa b hb hsb w hw => ?_⟩
  · rw [hhist] at hw
    rcases hmem hnew with ⟨hnew, hne⟩ | rfl
    · rcases List.mem_cons.mp hw with rfl | hw
      · exact absurd hid' hne
      · exact h.writes w hw hkind new hnew hid' hst'
    · rcases List.mem_cons.mp hw with rfl | hw
      · exact ⟨_, List.mem_append_right _ List.mem_cons_self, rfl, rfl⟩
      · obtain ⟨w', hw', hat⟩ := h.writes w hw hkind cur hcur hid' hst'
        exact ⟨w', List.mem_append_left _ hw', hat⟩
  · exact h.serial a (hcommitted ha hsa) b (hcommitted hb hsb) hsa hsb hne t r hwa hwb
  · have ha := hcommitted ha hsa
    rcases hmem hb with ⟨hb, -⟩ | rfl
    · exact h.later a ha b hb hsa hsb t r hwa hwb
    · obtain ⟨w, hw, rfl, rfl⟩ := hwb
      rcases List.mem_append.mp hw with hw | hw
      · exact h.later a ha cur hcur hsa hcur_active _ _ hwa ⟨w, hw, rfl, rfl⟩
      · obtain rfl := List.mem_singleton.mp hw
        exact hstart ▸ hlater a ha hsa hwa
  · have ha := hcommitted ha hsa
    by_cases hat : t = tab ∧ r = rid
    · obtain ⟨rfl, rfl⟩ := hat
      obtain rfl : rec_ = rec' := Option.some.inj (hput.slot_self.symm.trans hrec)
      have habort := hinv.not_aborted_of_active hcur fun haborted => by
        simp [Transaction.isActive, haborted] at hcur_active
      rw [hts]
      refine ⟨hbars ⟨.inl ⟨(hlater a ha hsa hwa).le, hstart ▸ habort⟩,
        hstart ▸ hinv.start_lt cur hcur⟩, fun b hb hsb hts' => ?_⟩
      rcases hmem hb with ⟨hb, hne⟩ | rfl
      · rw [hinv.start_inj b hb cur hcur (hts'.trans hstart.symm)] at hne
        exact absurd hid hne
      · exact ⟨_, List.mem_append_right _ List.mem_cons_self, rfl, rfl⟩
    · rw [hput.slot_ne hat] at hrec
      obtain ⟨hb_old, hown⟩ := h.slot a ha hsa t r hwa rec' hrec
      refine ⟨hbars hb_old, fun b hb hsb hts' => ?_⟩
      rcases hmem hb with ⟨hb, -⟩ | rfl
      · exact hown b hb hsb hts'
      · obtain ⟨w, hw, hat⟩ := hown cur hcur hcur_active hts'
        exact ⟨w, List.mem_append_left _ hw, hat⟩
  · have ha := hcommitted ha hsa
    have hactives : ∀ {ts}, (∀ c ∈ s.txnMgr.txnMap, c.isActive = true → c.startTs ≠ ts) →
        ∀ c ∈ s'.txnMgr.txnMap, c.isActive = true → c.startTs ≠ ts := by
      intro ts hne c hc hsc
      obtain ⟨old, hold, hso, heq⟩ := hstarts hc hsc
      exact heq ▸ hne old hold hso
    rcases hmem hb with ⟨hb, -⟩ | rfl
    · obtain ⟨hb_old, hne⟩ := h.image a ha hsa t r hwa b hb hsb w hw
      exact ⟨hbars hb_old, hactives hne⟩
    · dsimp only at hw
      rw [List.find?_append] at hw
      cases hfind : cur.writeSet.find? (·.isAt t r) with
      | some w' =>
        rw [hfind] at hw
        obtain rfl : w' = w := Option.some.inj hw
        obtain ⟨hb_old, hne⟩ := h.image a ha hsa t r hwa cur hcur hcur_active w' hfind
        exact ⟨hbars hb_old, hactives hne⟩
      | none =>
        -- The first write of the transaction to this slot: its image is what was there.
        rw [hfind, Option.none_or] at hw
        have hat := List.find?_some hw
        obtain rfl := List.mem_singleton.mp (List.mem_of_find?_eq_some hw)
        obtain ⟨rfl, rfl⟩ := WriteRecord.isAt_iff.mp hat
        obtain ⟨hb_old, hown⟩ := h.slot a ha hsa _ _ hwa _ hfile
        refine ⟨hbars hb_old, hactives fun c hc hsc hts' => ?_⟩
        obtain ⟨w, hw, hwat⟩ := hown c hc hsc hts'
        have hne : c.txnId ≠ txn.txnId := by
          intro heq
          rw [hinv.id_inj c hc cur hcur (heq.trans hid.symm)] at hw
          exact List.find?_eq_none.mp hfind w hw (WriteRecord.isAt_iff.mpr hwat)
        have hconflict := conflict_of_active hinv.toIds (RmFileHandle.getRecordMvcc_page hmay.visible).2
          hc hsc hne (fun heq => hne ?_) (hsettled.pos c hc) hts'.symm
        · rw [hmay.noConflict] at hconflict
          cases hconflict
        · rw [hinv.start_inj c hc cur hcur (heq.trans hstart.symm), hid]

theorem FirstWins.stmtStep (h : s.FirstWins) (hinv : s.txnMgr.Inv) (howned : s.Owned)
    (hsettled : s.Settled) (hactive : txn.isActive = true)
    (hstep : StmtStep tabs txn tab target inserting s₀ s s')
    (hfresh : inserting → s = s₀ → ∀ rid, target rid → ∀ other ∈ s.txnMgr.txnMap,
      ¬other.hasWritten tab rid) : s'.FirstWins := by
  have untouched : ∀ {rid rec_ used}, inserting → s = s₀ → target rid → s.Put s' tab rid rec_ used →
      ∀ t r, (∃ other ∈ s.txnMgr.txnMap, other.hasWritten t r) → s'.slot t r = s.slot t r := by
    rintro rid rec_ used hins hfirst htarget hput t r ⟨other, hother, hw⟩
    refine hput.slot_ne fun hat => ?_
    rw [hat.1, hat.2] at hw
    exact hfresh hins hfirst rid htarget other hother hw
  cases hstep.outcome with
  | notInserted runs logged slots history version =>
    exact h.unwritten howned logged (fun t r _ => slots.slot t r) fun w hw => .inl (history ▸ hw)
  | logged may htab target logged slots history version =>
    exact h.unwritten howned logged (fun t r _ => slots.slot t r) fun w hw => .inl (history ▸ hw)
  | inserted hins first runs file htarget slotNo free logged put history version =>
    refine h.unwritten howned logged (untouched hins first htarget put) fun w hw => ?_
    rw [history] at hw
    rcases List.mem_cons.mp hw with rfl | hw
    · exact .inr (.inl rfl)
    · exact .inl hw
  | refused hins first runs file htarget slotNo free logged put history version =>
    refine h.unwritten howned logged (untouched hins first htarget put) fun w hw => ?_
    rw [history] at hw
    rcases List.mem_cons.mp hw with rfl | hw
    · exact .inr (.inr rfl)
    · rcases List.mem_cons.mp hw with rfl | hw
      · exact .inr (.inl rfl)
      · exact .inl hw
  | overwritten may htab target write logged put history version =>
    refine h.overwritten hinv hsettled hactive may ?_ logged put history
    cases write <;> rfl

theorem FirstWins.stmtSteps (h : s.FirstWins) (hinv : s.txnMgr.Inv) (howned : s.Owned)
    (hsettled : s.Settled) (hactive : txn.isActive = true) (hheeds : s.Heeds txn tab target inserting)
    (hsteps : StmtSteps tabs txn tab target inserting s s s')
    (hfresh : inserting → ∀ rid, target rid → ∀ other ∈ s.txnMgr.txnMap, ¬other.hasWritten tab rid) :
    s'.FirstWins := by
  induction hsteps with
  | refl => exact h
  | tail hfirst hstep ih =>
    refine ih.stmtStep ((StmtSteps.inert hfirst).inv hinv) (howned.stmtSteps hfirst hactive hheeds)
      (hsettled.stmtSteps howned.ids hfirst hactive) hactive hstep ?_
    rintro hins rfl
    exact hfresh hins

end stmtStep

/-! ### Commit and abort -/

/-- Two unfinished transactions have not written the same slot. -/
private theorem Owned.writer_unique (h : s.Owned) {a b : Transaction} (ha : a ∈ s.txnMgr.txnMap)
    (hb : b ∈ s.txnMgr.txnMap) (hsa : a.isActive = true) (hsb : b.isActive = true)
    (hwa : a.hasWritten tab rid) (hwb : b.hasWritten tab rid) : a.txnId = b.txnId := by
  have hne : ∀ {c : Transaction}, c.isActive = true → c.state ≠ .committed := by
    intro c hactive hstate
    simp [Transaction.isActive, hstate] at hactive
  obtain ⟨rec_, hrec⟩ := h.holds_written ha (hne hsa) hwa
  obtain ⟨rec', hrec'⟩ := h.holds_written hb (hne hsb) hwb
  exact hrec.unique hrec'

theorem FirstWins.commit {cur : Transaction} (h : s.FirstWins) (hinv : s.txnMgr.Inv)
    (howned : s.Owned) (hcur : cur ∈ s.txnMgr.txnMap) (hactive : cur.isActive = true) :
    (s.commit cur).FirstWins := by
  have hcur_state : cur.state ≠ .committed := by
    intro hstate
    simp [Transaction.isActive, hstate] at hactive
  have htm : (s.commit cur).txnMgr = s.txnMgr.commitTxn cur := commit_txnMgr
  have hmem : ∀ {new}, new ∈ (s.commit cur).txnMgr.txnMap →
      new ∈ s.txnMgr.txnMap ∧ new.txnId ≠ cur.txnId ∨ new = cur.committedAt s.txnMgr.nextTimestamp := by
    intro new hnew
    rw [htm] at hnew
    obtain ⟨old, hold, ⟨hne, rfl⟩ | ⟨heq, rfl⟩⟩ := TransactionManager.mem_commitTxn hnew
    · exact .inl ⟨hold, hne⟩
    · rw [hinv.id_inj old hold cur hcur heq]
      exact .inr rfl
  have hother : ∀ {new}, new ∈ (s.commit cur).txnMgr.txnMap → new.isActive = true →
      new ∈ s.txnMgr.txnMap ∧ new.txnId ≠ cur.txnId := by
    intro new hnew hact
    rcases hmem hnew with hold | rfl
    · exact hold
    · cases hact
  have hbars : ∀ {a ts}, s.Bars a ts → (s.commit cur).Bars a ts := by
    intro a ts hbars
    refine hbars.mono ?_ ?_ <;> rw [htm]
    · exact fun ts hts => hts
    · exact Int.le_add_one le_rfl
  -- A slot that the commit has restamped, for a writer who is not later than the commit.
  have hstamped : ∀ {a : Transaction}, a.commitTs ≤ s.txnMgr.nextTimestamp →
      (s.commit cur).Bars a s.txnMgr.nextTimestamp := by
    intro a hle
    constructor
    · refine .inl ⟨hle, fun haborted => ?_⟩
      rw [htm] at haborted
      obtain ⟨other, hmem, -, hts⟩ := (hinv.abortedTxns _).mp haborted
      exact (hinv.start_lt other hmem).ne hts
    · rw [htm]
      exact Int.lt_succ _
  have hnobody : ∀ b ∈ (s.commit cur).txnMgr.txnMap, b.isActive = true →
      b.startTs ≠ s.txnMgr.nextTimestamp := fun b hb hsb =>
    (hinv.start_lt b (hother hb hsb).1).ne
  refine ⟨fun w hw hkind new hnew hid hst => ?_, fun a ha b hb hsa hsb hne t r hwa hwb => ?_,
    fun a ha b hb hsa hsb t r hwa hwb => ?_, fun a ha hsa t r hwa rec' hrec => ?_,
    fun a ha hsa t r hwa b hb hsb w hw => ?_⟩
  · rw [commit_history] at hw
    rcases hmem hnew with ⟨hnew, -⟩ | rfl
    · exact h.writes w hw hkind new hnew hid hst
    · refine h.writes w hw hkind cur hcur hid fun haborted => ?_
      simp [Transaction.isActive, haborted] at hactive
  · rcases hmem ha with ⟨ha, -⟩ | rfl <;> rcases hmem hb with ⟨hb, -⟩ | rfl
    · exact h.serial a ha b hb hsa hsb hne t r hwa hwb
    · exact .inl (h.later a ha cur hcur hsa hactive t r hwa hwb)
    · exact .inr (h.later b hb cur hcur hsb hactive t r hwb hwa)
    · exact absurd rfl hne
  · obtain ⟨hb, hne⟩ := hother hb hsb
    rcases hmem ha with ⟨ha, -⟩ | rfl
    · exact h.later a ha b hb hsa hsb t r hwa hwb
    · exact absurd (howned.writer_unique hb hcur hsb hactive hwb hwa) hne
  · rcases commit_slot s cur t r with ⟨hsame, -⟩ | ⟨rec_, hrec_, hst, hnew⟩
    · rw [hsame] at hrec
      rcases hmem ha with ⟨ha, -⟩ | rfl
      · obtain ⟨hb_old, hown⟩ := h.slot a ha hsa t r hwa rec' hrec
        exact ⟨hbars hb_old, fun b hb hsb hts => hown b (hother hb hsb).1 hsb hts⟩
      · -- The slot of a row that is not there keeps the start timestamp.
        obtain ⟨rec_, hholds⟩ := howned.holds_written hcur hcur_state hwa
        obtain rfl : rec_ = rec' := Option.some.inj (hholds.slot.symm.trans hrec)
        have hts := hholds.stamp hactive
        refine ⟨⟨.inr hts, ?_⟩, fun b hb hsb hts' => ?_⟩
        · rw [htm, hts]
          exact (hinv.start_lt cur hcur).trans (Int.lt_succ _)
        · obtain ⟨hb, hne⟩ := hother hb hsb
          rw [hinv.start_inj b hb cur hcur (hts'.trans hts)] at hne
          exact absurd rfl hne
    · obtain rfl : stamped s.txnMgr.nextTimestamp rec_ = rec' := Option.some.inj (hnew.symm.trans hrec)
      refine ⟨hstamped ?_, fun b hb hsb hts => absurd hts (hnobody b hb hsb)⟩
      rcases hmem ha with ⟨ha, -⟩ | rfl
      · exact (hinv.committed a ha hsa).2.1.le
      · exact le_rfl
  · obtain ⟨hb, hne⟩ := hother hb hsb
    rcases hmem ha with ⟨ha, -⟩ | rfl
    · obtain ⟨hb_old, hactives⟩ := h.image a ha hsa t r hwa b hb hsb w hw
      exact ⟨hbars hb_old, fun c hc hsc => hactives c (hother hc hsc).1 hsc⟩
    · have hat := List.find?_some hw
      have hwb : b.hasWritten t r := ⟨w, List.mem_of_find?_eq_some hw, WriteRecord.isAt_iff.mp hat⟩
      exact absurd (howned.writer_unique hb hcur hsb hactive hwb hwa) hne

theorem FirstWins.abort {cur : Transaction} (h : s.FirstWins) (howned : s.Owned)
    (hcur : cur ∈ s.txnMgr.txnMap) (hactive : cur.isActive = true) (habort : s.abort cur = some s') :
    s'.FirstWins := by
  have hcur_state : cur.state ≠ .committed := by
    intro hstate
    simp [Transaction.isActive, hstate] at hactive
  obtain ⟨hrolled, htm⟩ :=
    abort_spec (howned.ids.getTransaction hcur) (howned.undoable hcur hcur_state) habort
  have hmem : ∀ {new}, new ∈ s'.txnMgr.txnMap → new.state ≠ .aborted →
      new ∈ s.txnMgr.txnMap := by
    intro new hnew hstate
    rw [htm] at hnew
    obtain ⟨mid, hmid, rfl⟩ := TransactionManager.mem_modifyTxn hnew
    obtain ⟨old, hold, ⟨hne, rfl⟩ | ⟨heq, rfl⟩⟩ := TransactionManager.mem_markAborted hmid
    · rw [if_neg hne]
      exact hold
    · rw [if_pos heq] at hstate
      exact absurd rfl hstate
  have hcommitted : ∀ {new}, new ∈ s'.txnMgr.txnMap → new.state = .committed → new ∈ s.txnMgr.txnMap :=
    fun hnew hstate => hmem hnew (by simp [hstate])
  have hactives : ∀ {new}, new ∈ s'.txnMgr.txnMap → new.isActive = true → new ∈ s.txnMgr.txnMap := by
    intro new hnew hact
    refine hmem hnew fun haborted => ?_
    simp [Transaction.isActive, haborted] at hact
  have hbars : ∀ {a ts}, s.Bars a ts → cur.startTs ≠ ts → s'.Bars a ts := by
    intro a ts hbars hne
    constructor
    · refine hbars.late.imp_left fun hlate => ⟨hlate.1, fun haborted => ?_⟩
      rw [htm] at haborted
      rcases List.mem_cons.mp haborted with heq | haborted
      · exact hne heq.symm
      · exact hlate.2 haborted
    · rw [htm]
      exact hbars.lt
  refine ⟨fun w hw hkind new hnew hid hst => ?_, fun a ha b hb hsa hsb hne t r hwa hwb => ?_,
    fun a ha b hb hsa hsb t r hwa hwb => ?_, fun a ha hsa t r hwa rec' hrec => ?_,
    fun a ha hsa t r hwa b hb hsb w hw => ?_⟩
  · obtain ⟨es, hes, hall⟩ := hrolled.history
    rw [hes] at hw
    rcases List.mem_append.mp hw with hw | hw
    · simp [(hall w hw).2.1] at hkind
    · exact h.writes w hw hkind new (hmem hnew hst) hid hst
  · exact h.serial a (hcommitted ha hsa) b (hcommitted hb hsb) hsa hsb hne t r hwa hwb
  · exact h.later a (hcommitted ha hsa) b (hactives hb hsb) hsa hsb t r hwa hwb
  · have ha := hcommitted ha hsa
    rw [hrolled.slot] at hrec
    cases hfind : cur.writeSet.find? (·.isAt t r) with
    | some w =>
      rw [hfind] at hrec
      obtain rfl : w.record = rec' := Option.some.inj hrec
      obtain ⟨hb_old, hnobody⟩ := h.image a ha hsa t r hwa cur hcur hactive w hfind
      exact ⟨hbars hb_old (hnobody cur hcur hactive),
        fun b hb hsb hts => absurd hts (hnobody b (hactives hb hsb) hsb)⟩
    | none =>
      rw [hfind] at hrec
      obtain ⟨hb_old, hown⟩ := h.slot a ha hsa t r hwa rec' hrec
      refine ⟨hbars hb_old fun hts => ?_, fun b hb hsb hts => hown b (hactives hb hsb) hsb hts⟩
      obtain ⟨w, hw, hat⟩ := hown cur hcur hactive hts
      exact List.find?_eq_none.mp hfind w hw (WriteRecord.isAt_iff.mpr hat)
  · obtain ⟨hb_old, hnobody⟩ :=
      h.image a (hcommitted ha hsa) hsa t r hwa b (hactives hb hsb) hsb w hw
    exact ⟨hbars hb_old (hnobody cur hcur hactive),
      fun c hc hsc => hnobody c (hactives hc hsc) hsc⟩

end Store

variable {db db' : Database}

theorem Database.Started.firstWins {n : ℤ} (h : db.Started n) : db.store.FirstWins := by
  refine ⟨fun w hw => ?_, fun a ha => ?_, fun a ha => ?_, fun a ha => ?_, fun a ha => ?_⟩
  · rw [h.history] at hw
    cases hw
  all_goals
    rw [h.txnMgr] at ha
    cases ha

theorem firstWins_step {action : Action} (hstep : db.step action = some db') (hatomic : Atomic action)
    (hgc : KeepsVersions db action) (hfresh : TakesFresh db action) (hinv : db.store.txnMgr.Inv)
    (howned : db.store.Owned) (hsettled : db.store.Settled) (h : db.store.FirstWins) :
    db'.store.FirstWins := by
  cases action with
  | begin =>
    cases hstep
    exact h.begin howned
  | stmt txnId stmt =>
    obtain ⟨txn, htxn, -, hsteps⟩ := step_stmt hstep
    refine h.stmtSteps hinv howned hsettled (activeTxn_mem htxn).2.2 ?_ hsteps (hfresh txn htxn)
    exact hsettled.heeds fun hins other hother _ rid hrid => hfresh txn htxn hins rid hrid other hother
  | commit txnId =>
    obtain ⟨txn, htxn, rfl⟩ := step_commit hstep
    obtain ⟨hmem, -, hactive⟩ := activeTxn_mem htxn
    exact h.commit hinv howned hmem hactive
  | abort txnId =>
    obtain ⟨txn, store, htxn, habort, rfl⟩ := step_abort hstep
    obtain ⟨hmem, -, hactive⟩ := activeTxn_mem htxn
    exact h.abort howned hmem hactive habort
  | createIndex tab colNames unique =>
    rw [step_createIndex hstep]
    exact h
  | garbageCollection => exact hgc.elim
  | markAborted txnId => exact hatomic.elim
  | rollbackOne txnId => exact hatomic.elim
  | createTable tab colDefs => exact hatomic.elim
  | dropTable tab => exact hatomic.elim

/-- Of two committed writers of a row, one has started after the other's commit, where every INSERT
takes a slot that nobody has written before. -/
theorem committed_writers_not_concurrent {db₀ : Database} {n : ℤ} {a b : Transaction} {tab : String}
    {rid : Rid} (hstart : db₀.Started n) (hn : 1 ≤ n)
    (hrun : db₀.Reaches
      (fun db action => Atomic action ∧ KeepsVersions db action ∧ TakesFresh db action) db)
    (ha : a ∈ db.store.txnMgr.txnMap) (hb : b ∈ db.store.txnMgr.txnMap) (hne : a.txnId ≠ b.txnId)
    (hsa : a.state = .committed) (hsb : b.state = .committed) (hwa : db.store.Overwrote a tab rid)
    (hwb : db.store.Overwrote b tab rid) : a.commitTs < b.startTs ∨ b.commitTs < a.startTs := by
  have hall : db.store.txnMgr.Inv ∧ db.store.Owned ∧ db.store.Settled ∧ db.store.FirstWins := by
    clear ha hb hwa hwb
    induction hrun with
    | refl => exact ⟨hstart.inv, hstart.owned, hstart.settled hn, hstart.firstWins⟩
    | tail _ hmove ih =>
      obtain ⟨hinv, howned, hsettled, hfirst⟩ := ih
      obtain ⟨action, ⟨hatomic, hgc, hfresh⟩, hmove⟩ := hmove
      obtain ⟨howned', hsettled'⟩ := settled_step hmove hatomic hfresh.unwritten howned hsettled
      exact ⟨(step_inv hmove hgc.ne hinv).1, howned', hsettled',
        firstWins_step hmove hatomic hgc hfresh hinv howned hsettled hfirst⟩
  obtain ⟨-, -, -, hfirst⟩ := hall
  obtain ⟨wa, hwa, hida, rfl, rfl, hka⟩ := hwa
  obtain ⟨wb, hwb, hidb, htab, hrid, hkb⟩ := hwb
  have hwrote := hfirst.writes wb hwb hkb b hb hidb.symm (by simp [hsb])
  rw [htab, hrid] at hwrote
  exact hfirst.serial a ha b hb hsa hsb hne _ _
    (hfirst.writes wa hwa hka a ha hida.symm (by simp [hsa])) hwrote

/-- Transactions 1 and 2 update the same row, one after the other. -/
theorem committed_writers_not_concurrent_updates :
    ∃ db a b, (emptyTables 1 ["t"]).run
        (fun db action => Atomic action ∧ KeepsVersions db action ∧ TakesFresh db action)
        [.begin, .stmt 0 (.insert "t" [.int 1, .int 5]), .commit 0, .begin, .stmt 1 (updateB "t" 1 7),
          .commit 1, .begin, .stmt 2 (updateB "t" 1 8), .commit 2] = some db ∧
      db.store.txnMgr.getTransaction 1 = some a ∧ db.store.txnMgr.getTransaction 2 = some b ∧
      (a.commitTs < b.startTs ∨ b.commitTs < a.startTs) := by
  obtain ⟨db, hrun, a, ha, b, hb, hsa, hsb, hwa, hwb⟩ : ∃ db, (emptyTables 1 ["t"]).run
        (fun db action => Atomic action ∧ KeepsVersions db action ∧ TakesFresh db action)
        [.begin, .stmt 0 (.insert "t" [.int 1, .int 5]), .commit 0, .begin, .stmt 1 (updateB "t" 1 7),
          .commit 1, .begin, .stmt 2 (updateB "t" 1 8), .commit 2] = some db ∧
      ∃ a, db.store.txnMgr.getTransaction 1 = some a ∧
      ∃ b, db.store.txnMgr.getTransaction 2 = some b ∧ a.state = .committed ∧ b.state = .committed ∧
        db.store.Overwrote a "t" ⟨1, 0⟩ ∧ db.store.Overwrote b "t" ⟨1, 0⟩ :=
    ⟨_, rfl, _, rfl, _, rfl, rfl, rfl, by decide +kernel, by decide +kernel⟩
  obtain ⟨hmem_a, hid_a⟩ := TransactionManager.mem_of_getTransaction ha
  obtain ⟨hmem_b, hid_b⟩ := TransactionManager.mem_of_getTransaction hb
  exact ⟨db, a, b, hrun, ha, hb, committed_writers_not_concurrent
    (emptyTables_started (n := 1) (by decide) ["t"]) (by decide) (reaches_of_run hrun) hmem_a hmem_b
    (by rw [hid_a, hid_b]; decide) hsa hsb hwa hwb⟩

/-- Transaction 2 deletes a free slot through the index entry of a refused row. Transaction 3
inserts a row into the slot, and transaction 4 updates it, while transaction 2 is still active. -/
theorem not_committed_writers_not_concurrent : ¬∀ (db₀ db : Database) (n : ℤ) (a b : Transaction)
    (tab : String) (rid : Rid), db₀.Started n → 1 ≤ n →
    db₀.Reaches (fun db action => Atomic action ∧ KeepsVersions db action) db →
    a ∈ db.store.txnMgr.txnMap → b ∈ db.store.txnMgr.txnMap → a.txnId ≠ b.txnId →
    a.state = .committed → b.state = .committed → db.store.Overwrote a tab rid →
    db.store.Overwrote b tab rid → a.commitTs < b.startTs ∨ b.commitTs < a.startTs := by
  intro hclaim
  have hrun : (((emptyTables 1 ["t"]).run (fun db action => Atomic action ∧ KeepsVersions db action)
      [.createIndex "t" ["a"] true, .createIndex "t" ["b"] true,
        .begin, .stmt 0 (.insert "t" [.int 1, .int 5]), .commit 0,
        .begin, .stmt 1 (.insert "t" [.int 0, .int 5]), .commit 1,
        .begin, .stmt 2 (deleteByA "t" 0), .begin, .stmt 3 (.insert "t" [.int 7, .int 7]), .commit 3,
        .begin, .stmt 4 (updateB "t" 7 9), .commit 4, .commit 2]).any fun db =>
      (db.store.txnMgr.getTransaction 2).any fun a => (db.store.txnMgr.getTransaction 4).any fun b =>
        a.state = .committed && b.state = .committed && db.store.Overwrote a "t" ⟨1, 1⟩ &&
        db.store.Overwrote b "t" ⟨1, 1⟩ && b.startTs < a.commitTs && a.startTs < b.commitTs) =
      true := by decide +kernel
  simp only [Option.any_eq_true, Bool.and_eq_true, decide_eq_true_eq] at hrun
  obtain ⟨db, hrun, a, ha, b, hb, ⟨⟨⟨⟨hsa, hsb⟩, hwa⟩, hwb⟩, hlt⟩, hlt'⟩ := hrun
  obtain ⟨hmem_a, hid_a⟩ := TransactionManager.mem_of_getTransaction ha
  obtain ⟨hmem_b, hid_b⟩ := TransactionManager.mem_of_getTransaction hb
  have h := hclaim _ db 1 a b "t" ⟨1, 1⟩ (emptyTables_started (by decide) ["t"]) le_rfl
    (reaches_of_run hrun) hmem_a hmem_b (by rw [hid_a, hid_b]; decide) hsa hsb hwa hwb
  omega

end Rmdb
