import Rmdb.System.OwnWrites

/-! The timestamps of a server that is started on existing files: `main` scans the rows for the
largest timestamp and lets the next transaction start above it. -/
namespace Rmdb

/-- The eight bytes of a `timestamp_t`. -/
def readTimestamp (b : Bytes) : ℤ := (readWord (b.drop 4) ++ readWord b).toInt

def maxReasonableTimestamp : ℤ := 1000000

namespace RmFileHandle

variable (fh : RmFileHandle)

/-- What the scan takes for the timestamp of a row: the first bytes of what `get_record` hands
out, header or not. The deletion flag next to it is a boolean whatever its byte is. -/
def scannedTimestamp (rid : Rid) : Option ℤ :=
  (fh.getRecord rid).bind fun view =>
    let (ts, size) := match view.header with
      | none => (readTimestamp view.row.bytes, fh.recordSize - tupleMetaSize)
      | some m => (m.ts, fh.recordSize)
    if tupleMetaSize ≤ size ∧ 0 < ts ∧ ts < maxReasonableTimestamp then some ts else none

def scannedTimestamps : List ℤ := fh.scanRids.filterMap fh.scannedTimestamp

/-- The header of a row is taken away and the row goes on with a number that is taken for its
timestamp. -/
def Mistaken (rid : Rid) (ts : ℤ) : Prop :=
  rid ∈ fh.scanRids ∧ 0 < (fh.record rid).tupleMeta.ts ∧ 2 * tupleMetaSize ≤ fh.recordSize ∧
    readTimestamp (fh.record rid).row.bytes = ts ∧ 0 < ts ∧ ts < maxReasonableTimestamp

end RmFileHandle

def maxTimestamp (files : List RmFileHandle) : ℤ :=
  (files.flatMap (·.scannedTimestamps)).foldl max 0

/-- The transaction manager has read its counter from the metadata before these were loaded. -/
def constructedTimestamp : ℤ := 0

def startupTimestamp (files : List RmFileHandle) : ℤ :=
  if 0 < maxTimestamp files then maxTimestamp files + 1 else constructedTimestamp

private theorem le_foldl_max {a b : ℤ} {l : List ℤ} :
    a ≤ l.foldl max b ↔ a ≤ b ∨ ∃ x ∈ l, a ≤ x := by
  induction l generalizing b with
  | nil => simp
  | cons x l ih =>
    rw [List.foldl_cons, ih, le_max_iff]
    simp [or_assoc]

variable {fh : RmFileHandle} {files : List RmFileHandle} {rid : Rid} {ts : ℤ}

/-- A header that is not taken away holds no timestamp that the scan accepts. -/
theorem RmFileHandle.mem_scannedTimestamps :
    ts ∈ fh.scannedTimestamps ↔ ∃ rid, fh.Mistaken rid ts := by
  have hpage : ∀ rid ∈ fh.scanRids, fh.hasPage rid.pageNo := fun rid hrid =>
    (isRecord_iff.mp (mem_scanRids hrid)).1
  simp only [scannedTimestamps, List.mem_filterMap, Mistaken]
  refine exists_congr fun rid => and_congr_right fun hrid => ?_
  simp only [scannedTimestamp, getRecord, if_pos (hpage rid hrid), Option.bind_some]
  by_cases hpos : 0 < (fh.record rid).tupleMeta.ts
  · simp only [if_pos hpos]
    constructor
    · intro h
      split at h
      · rename_i hok
        obtain rfl := Option.some.inj h
        exact ⟨hpos, by simp only [tupleMetaSize] at hok ⊢; omega, rfl, hok.2⟩
      · cases h
    · rintro ⟨-, hsize, rfl, hok⟩
      rw [if_pos]
      exact ⟨by simp only [tupleMetaSize] at hsize ⊢; omega, hok⟩
  · simp only [if_neg hpos]
    constructor
    · intro h
      split at h
      · rename_i hok
        exact absurd hok.2.1 hpos
      · cases h
    · exact fun h => absurd h.1 hpos

theorem le_maxTimestamp :
    ts ≤ maxTimestamp files ↔ ts ≤ 0 ∨ ∃ fh ∈ files, ∃ rid x, fh.Mistaken rid x ∧ ts ≤ x := by
  rw [maxTimestamp, le_foldl_max]
  simp only [List.mem_flatMap, RmFileHandle.mem_scannedTimestamps]
  constructor
  · rintro (h | ⟨x, ⟨fh, hfh, rid, hx⟩, hle⟩)
    · exact .inl h
    · exact .inr ⟨fh, hfh, rid, x, hx, hle⟩
  · rintro (h | ⟨fh, hfh, rid, x, hx, hle⟩)
    · exact .inl h
    · exact .inr ⟨x, ⟨fh, hfh, rid, hx⟩, hle⟩

/-- The data of some row, taken for a timestamp, covers the stamp. Without such a row all
transactions start again from the beginning. -/
def Covered (files : List RmFileHandle) (ts : ℤ) : Prop :=
  (∃ fh ∈ files, ∃ rid x, fh.Mistaken rid x ∧ ts ≤ x) ∨
    ts < constructedTimestamp ∧ ∀ fh ∈ files, ∀ rid x, ¬fh.Mistaken rid x

theorem lt_startupTimestamp : ts < startupTimestamp files ↔ Covered files ts := by
  have hone : 1 ≤ maxTimestamp files ↔ ∃ fh ∈ files, ∃ rid x, fh.Mistaken rid x := by
    rw [le_maxTimestamp]
    constructor
    · rintro (h | ⟨fh, hfh, rid, x, hx, -⟩)
      · omega
      · exact ⟨fh, hfh, rid, x, hx⟩
    · rintro ⟨fh, hfh, rid, x, hx⟩
      have hpos : 0 < x := hx.2.2.2.2.1
      exact .inr ⟨fh, hfh, rid, x, hx, hpos⟩
  unfold startupTimestamp Covered
  by_cases hfound : 0 < maxTimestamp files
  · rw [if_pos hfound, Int.lt_add_one_iff, le_maxTimestamp]
    obtain ⟨fh, hfh, rid, x, hx⟩ := hone.mp hfound
    constructor
    · rintro (hle | hle)
      · have hpos : 0 < x := hx.2.2.2.2.1
        exact .inl ⟨fh, hfh, rid, x, hx, by omega⟩
      · exact .inl hle
    · rintro (hle | ⟨-, hnone⟩)
      · exact .inr hle
      · exact absurd hx (hnone fh hfh rid x)
  · rw [if_neg hfound]
    have hnone : ∀ fh ∈ files, ∀ rid x, ¬fh.Mistaken rid x := by
      intro fh hfh rid x hx
      exact hfound (hone.mpr ⟨fh, hfh, rid, x, hx⟩)
    constructor
    · exact fun hlt => .inr ⟨hlt, hnone⟩
    · rintro (⟨fh, hfh, rid, x, hx, -⟩ | ⟨hlt, -⟩)
      · exact absurd hx (hnone fh hfh rid x)
      · exact hlt

/-- Whatever is in the files, the server starts above all timestamps in them just when the data of
their rows covers these. -/
theorem startup_ahead_iff (files : List RmFileHandle) :
    (∀ fh ∈ files, ∀ rid ∈ fh.scanRids, (fh.record rid).tupleMeta.ts < startupTimestamp files) ↔
      ∀ fh ∈ files, ∀ rid ∈ fh.scanRids, Covered files (fh.record rid).tupleMeta.ts :=
  forall₂_congr fun _ _ => forall₂_congr fun _ _ => lt_startupTimestamp

/-- The files that `open_db` opens. -/
def Database.OpenFiles (db : Database) (files : List RmFileHandle) : Prop :=
  ∀ fh, fh ∈ files ↔ ∃ tab, db.store.fhs tab = some fh

/-- The second transaction inserts a row, stamped 2, and the server starts again from 0. -/
theorem not_startup_ahead : ¬∀ (db₀ db : Database) (n : ℤ) (files : List RmFileHandle),
    db₀.Started n → db₀.Reaches (fun _ action => Atomic action) db →
    (∀ txn ∈ db.store.txnMgr.txnMap, txn.state = .committed) → db.OpenFiles files →
    ∀ fh ∈ files, ∀ rid ∈ fh.scanRids, (fh.record rid).tupleMeta.ts < startupTimestamp files := by
  intro hclaim
  obtain ⟨db, hrun, hcommitted, fh, hfh, hother, hrid, hts, hstart⟩ :
      ∃ db, (Database.emptyTables 0 ["t"]).run (fun _ action => Atomic action)
          [.begin, .commit 0, .begin, .stmt 1 (.insert "t" [.int 1, .int 5]), .commit 1] = some db ∧
        (∀ txn ∈ db.store.txnMgr.txnMap, txn.state = .committed) ∧
        ∃ fh, db.store.fhs "t" = some fh ∧ (∀ tab, tab ≠ "t" → db.store.fhs tab = none) ∧
          ⟨1, 0⟩ ∈ fh.scanRids ∧ (fh.record ⟨1, 0⟩).tupleMeta.ts = 2 ∧ startupTimestamp [fh] = 0 := by
    refine ⟨_, rfl, by decide, _, rfl, fun tab htab => ?_, by decide +kernel, rfl, by decide +kernel⟩
    exact (Function.update_of_ne htab _ _).trans (if_neg (by simpa using htab))
  have hopen : db.OpenFiles [fh] := by
    intro fh'
    rw [List.mem_singleton]
    constructor
    · rintro rfl
      exact ⟨"t", hfh⟩
    · rintro ⟨tab, htab⟩
      by_cases heq : tab = "t"
      · exact Option.some.inj (htab.symm.trans (heq ▸ hfh))
      · exact absurd (htab.symm.trans (hother tab heq)) nofun
  have hlt := hclaim _ db 0 [fh] (Database.emptyTables_started le_rfl ["t"])
    (Database.reaches_of_run hrun) hcommitted hopen fh List.mem_cons_self _ hrid
  omega

end Rmdb
