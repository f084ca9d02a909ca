import Rmdb.Recovery.LogManager
import Rmdb.Record.GetRecord

/-! The record operations with a log: the record of a change goes to the log and the log to disk, and then the
change to its page. -/
namespace Rmdb

open Program

/-- What a call is told of its transaction. Nobody assigns the table's name in it. -/
structure LogContext where
  isMvcc : Bool
  txnId : BitVec 64

def LogPlace.ofRid (rid : Rid) : LogPlace where
  pageNo := .ofInt 32 rid.pageNo
  slotNo := .ofInt 32 rid.slotNo
  tableName := []

/-- A change of a slot: whether there was a log manager, which of the added records is about the change, and the
log file as it was then. -/
structure SlotWrite where
  hasLog : Bool
  logged : Option ℕ
  logFile : Bytes

/-- What an operation logs and what it then makes of the file. -/
structure RecordChange where
  body : LogContext → RmFile → Except RmError (Option LogBody)
  write : RmFile → Option RmFile

namespace RecordChange

/-- The record goes to the free slot that was found in this file. -/
def insert (file : RmFile) (buf : Bytes) : RecordChange where
  body _ created := .ok (some (.insert (buf.take created.hdr.recordSize) (.ofRid (file.insertRecord buf).1)))
  write _ := some (file.insertRecord buf).2

/-- The body of a log record with the old bytes of the slot. -/
def withOld (body : Bytes → LogBody) (rid : Rid) (ctx : LogContext) (file : RmFile) : Except RmError (Option LogBody) :=
  Option.map (fun old => body old.data) <$> file.getRecord ctx.isMvcc rid

def delete (rid : Rid) : RecordChange where
  body ctx file := withOld (fun old => .delete old (.ofRid rid)) rid ctx file
  write file :=
    match file.fetchPageHandle rid.pageNo with
    | none => none
    | some page =>
      if Bitmap.isSet (RmPage.bitmap file.hdr page) rid.slotNo.toNat then some (file.deleteRecord rid) else none

def update (rid : Rid) (buf : Bytes) : RecordChange where
  body ctx file := withOld (fun old => .update old (buf.take file.hdr.recordSize) (.ofRid rid)) rid ctx file
  write file := (file.fetchPageHandle rid.pageNo).map fun _ => file.updateRecord rid buf

/-- The log record about a change that is made. -/
def record (change : RecordChange) (ctx : Option LogContext) (file : RmFile) : Option LogRecord := do
  let ctx ← ctx
  match change.body ctx file, change.write file with
  | .ok (some body), some _ => return .construct ctx.txnId body
  | _, _ => none

end RecordChange

structure LoggedFile where
  log : LogRun
  file : RmFile
  writes : List SlotWrite

inductive LoggedError where
  | log (e : LogError)
  | record (e : RmError)
deriving DecidableEq, Repr

abbrev LoggedM := ExceptT LoggedError (StateM LoggedFile)

inductive LoggedCall where
  | log (call : LogCall)
  | insertRecord (ctx : Option LogContext) (buf : Bytes)
  | deleteRecord (ctx : Option LogContext) (rid : Rid)
  | updateRecord (ctx : Option LogContext) (rid : Rid) (buf : Bytes)

namespace LoggedFile

def start (persistLsn : BitVec 32) (logFile : Bytes) (file : RmFile) : LoggedFile where
  log := .start persistLsn logFile
  file := file
  writes := []

def onLog {α : Type} (call : LogM α) : LoggedM α := do
  let s ← get
  let (res, manager) := runFrom call s.log.manager
  modify fun s => { s with log := { s.log with manager } }
  match res with
  | .ok a => return a
  | .error e => throw (.log e)

/-- The record goes to the log, and the log to disk up to it. -/
def addLog (ctx : LogContext) (body : LogBody) : LoggedM ℕ := do
  let place := (← get).log.added.length
  let r := LogRecord.construct ctx.txnId body
  let lsn ← onLog (LogManager.addLogToBuffer r)
  modify fun s => { s with log := { s.log with added := s.log.added ++ [r.withLsn lsn] } }
  onLog (LogManager.forceFlushLogToDisk lsn)
  return place

/-- What is logged about a change, where there is a log manager and something to log. -/
def logChange (ctx : Option LogContext) (change : RecordChange) : LoggedM (Option ℕ) := do
  match ctx with
  | none => return none
  | some ctx =>
    match change.body ctx (← get).file with
    | .error e => throw (.record e)
    | .ok none => return none
    | .ok (some body) => some <$> addLog ctx body

/-- The change, where there is a slot for it. -/
def writeSlot (change : RecordChange) (hasLog : Bool) (logged : Option ℕ) : LoggedM Unit := do
  match change.write (← get).file with
  | none => return
  | some file => modify fun s => { s with file, writes := ⟨hasLog, logged, s.log.manager.logFile⟩ :: s.writes }

def changeSlot (ctx : Option LogContext) (change : RecordChange) : LoggedM Unit := do
  let logged ← logChange ctx change
  writeSlot change ctx.isSome logged

/-- The page is there before the record is logged. -/
def insertRecord (ctx : Option LogContext) (buf : Bytes) : LoggedM Rid := do
  let file := (← get).file
  let created := file.createPageHandle.2
  modify fun s => { s with file := created }
  if file.freeSlot < created.hdr.numRecordsPerPage then changeSlot ctx (.insert file buf)
  return (file.insertRecord buf).1

def deleteRecord (ctx : Option LogContext) (rid : Rid) : LoggedM Unit := changeSlot ctx (.delete rid)

def updateRecord (ctx : Option LogContext) (rid : Rid) (buf : Bytes) : LoggedM Unit := changeSlot ctx (.update rid buf)

def exec : LoggedCall → LoggedM Unit
  | .log call => do
    let added ← onLog (LogRun.exec call (← get).log.added)
    modify fun s => { s with log := { s.log with added } }
  | .insertRecord ctx buf => do
    let _ ← insertRecord ctx buf
  | .deleteRecord ctx rid => deleteRecord ctx rid
  | .updateRecord ctx rid buf => updateRecord ctx rid buf

/-- The state behind a call, unless it never ends. -/
def ended {α : Type} : Except LoggedError α × LoggedFile → Option LoggedFile
  | (.error (.log _), _) => none
  | (_, s') => some s'

def step (call : LoggedCall) (s : LoggedFile) : Option LoggedFile := ended (runFrom (exec call) s)

end LoggedFile

/-- All added records but those behind the first `n` are on disk. -/
structure LogRun.Reaches (logFile : Bytes) (added : List LogRecord) (n : ℕ) (onDisk : Bytes) : Prop where
  le : n ≤ added.length
  onDisk : onDisk = logFile ++ (added.take n).flatMap LogRecord.serialize

/-- Every record with a number up to `lsn` is on disk. -/
def LogRun.Durable (logFile : Bytes) (lsn : BitVec 32) (run : LogRun) : Prop :=
  ∃ n, Reaches logFile run.added n run.manager.logFile ∧ ∀ r ∈ run.added.drop n, lsn.slt r.lsn

/-- Where there was a log manager, the record about the change was on disk before the change. -/
def SlotWrite.Ahead (logFile : Bytes) (added : List LogRecord) (w : SlotWrite) : Prop :=
  w.hasLog → ∃ place ∈ w.logged, ∃ n, place < n ∧ LogRun.Reaches logFile added n w.logFile

namespace LoggedFile

/-- After a forced flush the records up to its number are on disk, and no slot was changed ahead of its record. -/
structure WriteAhead (logFile : Bytes) (s : LoggedFile) (call : LoggedCall) (s' : LoggedFile) : Prop where
  durable : ∀ lsn, call = .log (.forceFlush lsn) → (∃ r ∈ s.log.added, r.lsn = lsn) → s'.log.Durable logFile lsn
  ahead : ∀ w ∈ s'.writes, w.Ahead logFile s'.log.added

/-- The log record about the change that a call makes. -/
def recordOf (file : RmFile) : LoggedCall → Option LogRecord
  | .log _ => none
  | .insertRecord ctx buf =>
    if file.freeSlot < file.createPageHandle.2.hdr.numRecordsPerPage then
      (RecordChange.insert file buf).record ctx file.createPageHandle.2
    else none
  | .deleteRecord ctx rid => (RecordChange.delete rid).record ctx file
  | .updateRecord ctx rid buf => (RecordChange.update rid buf).record ctx file

/-- Where the log is forced to disk up to a number that was given away, `persist_lsn_` is below it, or comes from a
write and the numbers have not turned negative since. Where a slot is changed, it is below the number of the record
that goes to the log before. -/
def Forces (logFile : Bytes) (call : LoggedCall) (s : LoggedFile) : Prop :=
  (∀ lsn, call = .log (.forceFlush lsn) → (∃ r ∈ s.log.added, r.lsn = lsn) →
    s.log.manager.persistLsn.slt lsn ∨
      s.log.manager.logFile ≠ logFile ∧ s.log.manager.persistLsn.sle (s.log.manager.globalLsn - 1)) ∧
  ∀ r ∈ recordOf s.file call, s.log.manager.logBuffer.offset + r.logTotLen.toNat ≤ logBufferSize →
    s.log.manager.persistLsn.slt s.log.manager.globalLsn

end LoggedFile
namespace LogRun

variable {logFile onDisk : Bytes} {added : List LogRecord} {run : LogRun} {n n' : ℕ} {r : LogRecord} {lsn : BitVec 32}

/-- Between two calls: the first `n` records are on disk, the others in the buffer. -/
structure Persisted (logFile : Bytes) (run : LogRun) (n : ℕ) : Prop where
  reaches : Reaches logFile run.added n run.manager.logFile
  pending : run.manager.logBuffer.written = (run.added.drop n).flatMap LogRecord.serialize
  offset_le : run.manager.logBuffer.offset ≤ logBufferSize
  unlatched : run.manager.latch = false
  globalLsn : run.manager.globalLsn = .ofNat 32 run.added.length
  numbered : ∀ i (h : i < run.added.length), run.added[i].lsn = .ofNat 32 i
  written : ∀ r ∈ run.added, r.Written
  persistLsn : 0 < n → run.manager.persistLsn = .ofNat 32 (n - 1)

theorem start_persisted (persistLsn : BitVec 32) (logFile : Bytes) : Persisted logFile (start persistLsn logFile) 0 where
  reaches := ⟨Nat.le_refl _, (List.append_nil _).symm⟩
  pending := List.take_zero
  offset_le := Nat.zero_le _
  unlatched := rfl
  globalLsn := rfl
  numbered := nofun
  written := nofun
  persistLsn := fun h => absurd h (Nat.lt_irrefl 0)

theorem ofNat_sub_one {k : ℕ} (hk : 0 < k) : BitVec.ofNat 32 k - 1 = .ofNat 32 (k - 1) := by
  have hone : BitVec.toNat (1 : BitVec 32) = 1 := rfl
  apply BitVec.eq_of_toNat_eq
  rw [BitVec.toNat_sub, BitVec.toNat_ofNat, BitVec.toNat_ofNat, hone]
  omega

theorem toInt_number (i : ℕ) :
    (BitVec.ofNat 32 i).toInt = if i % 2 ^ 32 < 2 ^ 31 then (i % 2 ^ 32 : ℤ) else i % 2 ^ 32 - 2 ^ 32 := by
  rw [BitVec.toInt_eq_toNat_cond, BitVec.toNat_ofNat]
  split <;> split <;> omega

/-- Where `lsn` is not above the last number on disk, the numbers behind that are above `lsn` just when the largest
number has not been passed since. -/
theorem numbers_after {k : ℕ} (hpos : 0 < n) (hle : n ≤ k) (hgap : k - n ≤ logBufferSize)
    (hlow : lsn.toInt ≤ (BitVec.ofNat 32 (n - 1)).toInt) :
    (∀ i, n ≤ i → i < k → lsn.toInt < (BitVec.ofNat 32 i).toInt) ↔
      (BitVec.ofNat 32 (n - 1)).toInt ≤ (BitVec.ofNat 32 (k - 1)).toInt := by
  have hsize : logBufferSize = 4194304 := rfl
  have hmin := lsn.le_toInt
  simp only [toInt_number] at hlow ⊢
  constructor
  · intro h
    by_contra hlt
    -- The smallest number is given away in between.
    have hfirst := h (n - 1 + (2 ^ 31 - (n - 1) % 2 ^ 32))
    grind
  · intro h i hi hik
    grind

/-- No two numbers of records make the same log. -/
theorem Reaches.unique (h : Reaches logFile added n onDisk) (h' : Reaches logFile added n' onDisk)
    (hwritten : ∀ r ∈ added, r.Written) : n = n' := by
  have hlt : ∀ {a b : ℕ}, a < b → b ≤ added.length →
      (added.take a).flatMap LogRecord.serialize ≠ (added.take b).flatMap LogRecord.serialize := by
    intro a b hab hb heq
    have hsplit : added.take b = added.take a ++ (added.drop a).take (b - a) := by
      rw [← List.take_add, Nat.add_sub_cancel' (Nat.le_of_lt hab)]
    rw [hsplit, List.flatMap_append, List.self_eq_append_right] at heq
    have hbetween : ∀ r ∈ (added.drop a).take (b - a), r.Written := fun r hr =>
      hwritten r (List.mem_of_mem_drop (List.mem_of_mem_take hr))
    have hcount := LogRecord.sized.length_le hbetween
    rw [heq, List.length_take, List.length_drop, List.length_nil] at hcount
    omega
  have heq : (added.take n).flatMap LogRecord.serialize = (added.take n').flatMap LogRecord.serialize :=
    List.append_cancel_left (h.onDisk.symm.trans h'.onDisk)
  rcases Nat.lt_trichotomy n n' with hnn | hnn | hnn
  · exact absurd heq (hlt hnn h'.le)
  · exact hnn
  · exact absurd heq.symm (hlt hnn h.le)

theorem Reaches.append (h : Reaches logFile added n onDisk) (later : List LogRecord) :
    Reaches logFile (added ++ later) n onDisk where
  le := Nat.le_trans h.le (by rw [List.length_append]; exact Nat.le_add_right _ _)
  onDisk := by rw [List.take_append_of_le_length h.le, h.onDisk]

namespace Persisted

theorem length_pending (h : Persisted logFile run n) :
    ((run.added.drop n).flatMap LogRecord.serialize).length = run.manager.logBuffer.offset := by
  have hoffset := h.offset_le
  have hsize := run.manager.logBuffer.size
  rw [← h.pending, LogBuffer.written, List.length_take]
  omega

/-- Every record takes more than one byte. -/
theorem count_le (h : Persisted logFile run n) : run.added.length - n ≤ run.manager.logBuffer.offset := by
  have hpending : ∀ r ∈ run.added.drop n, r.Written := fun r hr => h.written r (List.mem_of_mem_drop hr)
  have hcount := LogRecord.sized.length_le hpending
  rw [h.length_pending, List.length_drop] at hcount
  exact hcount

theorem flushed (h : Persisted logFile run n) :
    Persisted logFile ⟨run.manager.flushed, run.added⟩ run.added.length := by
  have hempty : run.added.drop run.added.length = [] := List.drop_length
  by_cases hpos : 0 < run.manager.logBuffer.offset
  · have hflushed : run.manager.flushed = { run.manager with
        logFile := run.manager.logFile ++ run.manager.logBuffer.written
        persistLsn := run.manager.globalLsn - 1
        logBuffer := { run.manager.logBuffer with offset := 0 } } := if_pos hpos
    rw [hflushed]
    constructor
    · refine ⟨Nat.le_refl _, ?_⟩
      show run.manager.logFile ++ run.manager.logBuffer.written = _
      rw [h.reaches.onDisk, h.pending, List.append_assoc, ← List.flatMap_append, List.take_append_drop, List.take_length]
    · show List.take 0 _ = _
      rw [List.take_zero, hempty]
      rfl
    · exact Nat.zero_le _
    · exact h.unlatched
    · exact h.globalLsn
    · exact h.numbered
    · exact h.written
    · intro hadded
      show run.manager.globalLsn - 1 = _
      rw [h.globalLsn]
      exact ofNat_sub_one hadded
  · have hflushed : run.manager.flushed = run.manager := if_neg hpos
    have hcount := h.count_le
    have hle := h.reaches.le
    have hall : n = run.added.length := by omega
    rw [hflushed]
    exact hall ▸ h

/-- The record gets the next number and waits in the buffer. -/
theorem add (h : Persisted logFile run n) (hr : r.Written)
    (hfits : run.manager.logBuffer.offset + r.logTotLen.toNat ≤ logBufferSize) :
    ∃ manager, runFrom (LogManager.addLogToBuffer r) run.manager = (.ok run.manager.globalLsn, manager) ∧
      manager.persistLsn = run.manager.persistLsn ∧
      Persisted logFile ⟨manager, run.added ++ [r.withLsn run.manager.globalLsn]⟩ n := by
  obtain ⟨b, hrun, hwritten, hoffset⟩ := LogManager.addLogToBuffer_spec hr h.unlatched hfits
  refine ⟨_, hrun, rfl, ?_⟩
  constructor
  · exact h.reaches.append _
  · show b.written = _
    rw [hwritten, h.pending, List.drop_append_of_le_length h.reaches.le, List.flatMap_append, List.flatMap_singleton]
  · show b.offset ≤ _
    omega
  · exact h.unlatched
  · show run.manager.globalLsn + 1 = _
    rw [h.globalLsn, List.length_append, List.length_singleton]
    apply BitVec.eq_of_toNat_eq
    simp
  · intro i hi
    simp only [List.length_append, List.length_singleton] at hi
    rcases Nat.lt_succ_iff_lt_or_eq.mp hi with hlt | rfl
    · show (run.added ++ _)[i].lsn = _
      rw [List.getElem_append_left hlt]
      exact h.numbered i hlt
    · show (run.added ++ _)[run.added.length].lsn = _
      rw [List.getElem_concat_length rfl]
      exact h.globalLsn
  · intro r' hr'
    rcases List.mem_append.mp hr' with hr' | hr'
    · exact h.written r' hr'
    · obtain rfl := List.mem_singleton.mp hr'
      exact hr.withLsn _
  · exact h.persistLsn

theorem logFile_ne_iff (h : Persisted logFile run n) : run.manager.logFile ≠ logFile ↔ 0 < n := by
  rw [Nat.pos_iff_ne_zero]
  apply not_congr
  constructor
  · intro heq
    have hnone : Reaches logFile run.added 0 run.manager.logFile := ⟨Nat.zero_le _, by
      rw [heq]
      exact (List.append_nil _).symm⟩
    exact h.reaches.unique hnone h.written
  · intro hzero
    subst hzero
    rw [h.reaches.onDisk]
    exact List.append_nil _

theorem durable_iff (h : Persisted logFile run n) : run.Durable logFile lsn ↔
    ∀ i, n ≤ i → i < run.added.length → lsn.toInt < (BitVec.ofNat 32 i).toInt := by
  have hdrop : (∀ r ∈ run.added.drop n, lsn.slt r.lsn) ↔
      ∀ i, n ≤ i → i < run.added.length → lsn.toInt < (BitVec.ofNat 32 i).toInt := by
    constructor
    · intro hall i hi hlt
      have hmem : run.added[i] ∈ run.added.drop n := List.mem_drop_iff_getElem.mpr
        ⟨i - n, by omega, by simp only [Nat.add_sub_cancel' hi]⟩
      rw [← h.numbered i hlt]
      exact BitVec.slt_iff_toInt_lt.mp (hall _ hmem)
    · intro hall r hr
      obtain ⟨i, hi, rfl⟩ := List.mem_drop_iff_getElem.mp hr
      have hlt : n + i < run.added.length := by omega
      rw [BitVec.slt_iff_toInt_lt, h.numbered (n + i) hlt]
      exact hall (n + i) (Nat.le_add_right n i) hlt
  rw [← hdrop]
  constructor
  · intro ⟨n', hreaches, hall⟩
    obtain rfl := h.reaches.unique hreaches h.written
    exact hall
  · exact fun hall => ⟨n, h.reaches, hall⟩

theorem durable_of_flushed (h : Persisted logFile run run.added.length) : run.Durable logFile lsn :=
  h.durable_iff.mpr fun _ hi hlt => absurd hlt (Nat.not_lt.mpr hi)

/-- The records up to the number of one of them are on disk without a flush just when the last write was behind the
first of them and no number has turned negative since. -/
theorem durable_iff_of_not_slt (h : Persisted logFile run n) (hassigned : ∃ r ∈ run.added, r.lsn = lsn)
    (hslt : ¬run.manager.persistLsn.slt lsn) : run.Durable logFile lsn ↔
      run.manager.logFile ≠ logFile ∧ run.manager.persistLsn.sle (run.manager.globalLsn - 1) := by
  have hsize : logBufferSize = 4194304 := rfl
  have hcount := h.count_le
  have hoffset := h.offset_le
  rw [h.durable_iff, h.logFile_ne_iff]
  by_cases hpos : 0 < n
  · have hle := h.reaches.le
    have hlow : lsn.toInt ≤ (BitVec.ofNat 32 (n - 1)).toInt := by
      rw [← h.persistLsn hpos]
      exact Int.not_lt.mp fun hlt => hslt (BitVec.slt_iff_toInt_lt.mpr hlt)
    have hlast : run.manager.globalLsn - 1 = .ofNat 32 (run.added.length - 1) := by
      rw [h.globalLsn]
      exact ofNat_sub_one (by omega)
    rw [numbers_after hpos hle (by omega) hlow, BitVec.sle_iff_toInt_le, h.persistLsn hpos, hlast]
    exact (and_iff_right hpos).symm
  · obtain ⟨r, hr, rfl⟩ := hassigned
    obtain ⟨i, hi, rfl⟩ := List.mem_iff_getElem.mp hr
    refine iff_of_false (fun hall => ?_) fun hwritten => hpos hwritten.1
    have hself := hall i (by omega) hi
    rw [h.numbered i hi] at hself
    exact Int.lt_irrefl _ hself

end Persisted

end LogRun
namespace RmFile

variable {f : RmFile} {rid : Rid} {buf : Bytes} {isMvcc : Bool} {rec_ : RecordCopy}

theorem insertRecord_recordSize (f : RmFile) (buf : Bytes) : (f.insertRecord buf).2.hdr.recordSize = f.hdr.recordSize := by
  have hcreate := createPageHandle_hdr f
  unfold insertRecord
  dsimp only
  split
  · split
    · exact hcreate
    · exact hcreate
  · exact hcreate

theorem deleteRecord_recordSize (f : RmFile) (rid : Rid) : (f.deleteRecord rid).hdr.recordSize = f.hdr.recordSize := by
  unfold deleteRecord releasePageHandle
  grind [setPage, setFirstFree, writeHdr]

theorem updateRecord_recordSize (f : RmFile) (rid : Rid) (buf : Bytes) :
    (f.updateRecord rid buf).hdr.recordSize = f.hdr.recordSize := by
  unfold updateRecord
  split
  · rfl
  · rfl

theorem length_copyRecord {page : Bytes} {pos : ℕ} {size : ℤ} (h : copyRecord page pos size = .ok rec_) :
    rec_.data.length = size.toNat := by
  unfold copyRecord at h
  split at h
  · exact absurd h nofun
  · obtain rfl := Except.ok.inj h
    exact Sparse.length_window ..

/-- A record comes with no more bytes than a slot has, and from every page. -/
theorem getRecord_some (h : f.getRecord isMvcc rid = .ok (some rec_)) : rec_.data.length ≤ f.hdr.recordSize := by
  have hsome : ∀ {page : Bytes} {pos : ℕ} {size : ℤ}, some <$> copyRecord page pos size = .ok (some rec_) →
      rec_.data.length = size.toNat := by
    intro page pos size hcopy
    cases hrec : copyRecord page pos size with
    | error e =>
      rw [hrec] at hcopy
      exact absurd hcopy nofun
    | ok copy =>
      rw [hrec] at hcopy
      obtain rfl := Option.some.inj (Except.ok.inj hcopy)
      exact length_copyRecord hrec
  unfold getRecord at h
  split at h
  · exact absurd h nofun
  · dsimp only at h
    split at h
    · rw [hsome h, Int.toNat_natCast]
    · split at h
      · rw [hsome h]
        omega
      · rw [hsome h, Int.toNat_natCast]

theorem getRecord_none (h : f.getRecord isMvcc rid = .ok none) : f.fetchPageHandle rid.pageNo = none := by
  have hnone : ∀ x : Except RmError RecordCopy, some <$> x ≠ .ok none := by
    intro x hx
    cases x with
    | error e => exact absurd hx nofun
    | ok copy => exact absurd hx nofun
  cases hpage : f.fetchPageHandle rid.pageNo with
  | none => rfl
  | some page =>
    unfold getRecord at h
    rw [hpage] at h
    dsimp only at h
    split at h
    · exact absurd h (hnone _)
    · split at h
      · exact absurd h (hnone _)
      · exact absurd h (hnone _)

end RmFile

namespace LoggedFile

open Runs

variable {logFile : Bytes} {s s' : LoggedFile} {n : ℕ} {ctx : LogContext} {body : LogBody} {α : Type}

theorem runFrom_onLog (call : LogM α) : runFrom (onLog call) s =
    match runFrom call s.log.manager with
    | (.ok a, manager) => (.ok a, { s with log := { s.log with manager } })
    | (.error e, manager) => (.error (.log e), { s with log := { s.log with manager } }) := by
  simp only [onLog, runFrom_bind, runFrom_get, runFrom_modify]
  rcases runFrom call s.log.manager with ⟨_ | _, _⟩ <;> rfl

/-- The record about a change is on disk behind the forced flush just when there was one. -/
theorem addLog_spec (h : s.log.Persisted logFile n) (hbody : logHeaderSize + body.size < 2 ^ 31)
    (hfits : s.log.manager.logBuffer.offset + (LogRecord.construct ctx.txnId body).logTotLen.toNat ≤ logBufferSize) :
    ∃ log n', runFrom (addLog ctx body) s = (.ok s.log.added.length, { s with log }) ∧
      log.added = s.log.added ++ [(LogRecord.construct ctx.txnId body).withLsn s.log.manager.globalLsn] ∧
      log.Persisted logFile n' ∧
      (s.log.added.length < n' ↔ s.log.manager.persistLsn.slt s.log.manager.globalLsn) := by
  obtain ⟨manager, hrun, hpersist, hadded⟩ := h.add ⟨rfl, hbody⟩ hfits
  have hforce := LogManager.runFrom_forceFlushLogToDisk s.log.manager.globalLsn hadded.unlatched
  have hrunAll : runFrom (addLog ctx body) s = (.ok s.log.added.length, { s with log :=
      ⟨if manager.persistLsn.slt s.log.manager.globalLsn then manager.flushed else manager, s.log.added ++
        [(LogRecord.construct ctx.txnId body).withLsn s.log.manager.globalLsn]⟩ }) := by
    simp only [addLog, runFrom_bind, runFrom_get, runFrom_onLog, hrun, runFrom_modify, hforce, runFrom_pure]
  rw [hpersist] at hrunAll
  cases hslt : s.log.manager.persistLsn.slt s.log.manager.globalLsn with
  | true =>
    rw [hslt] at hrunAll
    refine ⟨_, _, hrunAll, rfl, hadded.flushed, ?_⟩
    simp
  | false =>
    rw [hslt] at hrunAll
    refine ⟨_, n, hrunAll, rfl, hadded, iff_of_false ?_ nofun⟩
    exact Nat.not_lt.mpr h.reaches.le

theorem addLog_full (h : s.log.Persisted logFile n) (hbody : logHeaderSize + body.size < 2 ^ 31)
    (hfull : ¬s.log.manager.logBuffer.offset + (LogRecord.construct ctx.txnId body).logTotLen.toNat ≤ logBufferSize) :
    ∃ e s', runFrom (addLog ctx body) s = (.error (.log e), s') := by
  obtain ⟨e, he⟩ := LogManager.addLogToBuffer_full ⟨rfl, hbody⟩ h.unlatched hfull
  rcases hrun : runFrom (LogManager.addLogToBuffer (LogRecord.construct ctx.txnId body)) s.log.manager with ⟨res, m'⟩
  rw [hrun] at he
  obtain rfl : res = .error e := he
  exact ⟨e, { s with log := { s.log with manager := m' } }, by
    simp only [addLog, runFrom_bind, runFrom_get, runFrom_onLog, hrun]⟩

/-- Between two calls. -/
structure Inv (logFile : Bytes) (s : LoggedFile) : Prop where
  persisted : ∃ n, s.log.Persisted logFile n
  recordSize : s.file.hdr.recordSize ≤ rmMaxRecordSize

/-- A call never ends and `meets`, or it ends, and all slots were changed behind their records just when `meets`. -/
def Outcome (logFile : Bytes) (meets : Prop) : Option LoggedFile → Prop
  | none => meets
  | some s' => Inv logFile s' ∧ ((∀ w ∈ s'.writes, w.Ahead logFile s'.log.added) ↔ meets)

/-- A change of a slot that is found only where a record is found, and has a record of its own size. -/
structure Loggable (change : RecordChange) (file : RmFile) : Prop where
  recordSize : ∀ file' ∈ change.write file, file'.hdr.recordSize = file.hdr.recordSize
  size : ∀ ctx body, change.body ctx file = .ok (some body) → logHeaderSize + body.size < 2 ^ 31
  absent : ∀ ctx, change.body ctx file = .ok none → change.write file = none

theorem RecordChange.record_eq {change : RecordChange} {file : RmFile} (hbody : change.body ctx file = .ok (some body)) :
    change.record (some ctx) file = (change.write file).map fun _ => .construct ctx.txnId body := by
  simp only [RecordChange.record, Option.bind_eq_bind, Option.bind_some, hbody]
  cases change.write file with
  | none => rfl
  | some file' => rfl

theorem RecordChange.record_eq_none {change : RecordChange} {file : RmFile}
    (hbody : ∀ body, change.body ctx file ≠ .ok (some body)) : change.record (some ctx) file = none := by
  simp only [RecordChange.record, Option.bind_eq_bind, Option.bind_some]
  split
  · rename_i body _ heq _
    exact absurd heq (hbody body)
  · rfl

theorem ahead_append {added : List LogRecord} {w : SlotWrite} (h : w.Ahead logFile added) (later : List LogRecord) :
    w.Ahead logFile (added ++ later) := by
  intro hlog
  obtain ⟨place, hplace, n, hlt, hreaches⟩ := h hlog
  exact ⟨place, hplace, n, hlt, hreaches.append later⟩

/-- How the log part of a change comes out. -/
inductive Logs (logFile : Bytes) (s : LoggedFile) (ctx : Option LogContext) (change : RecordChange) :
    Except LoggedError (Option ℕ) × LoggedFile → Prop where
  | stuck {e : LogError} {s' : LoggedFile} (full : ∀ r ∈ change.record ctx s.file,
      ¬s.log.manager.logBuffer.offset + r.logTotLen.toNat ≤ logBufferSize) : Logs logFile s ctx change (.error (.log e), s')
  | thrown {e : RmError} (record : change.record ctx s.file = none) : Logs logFile s ctx change (.error (.record e), s)
  | nothing (record : change.record ctx s.file = none) (write : ctx.isSome → change.write s.file = none) :
      Logs logFile s ctx change (.ok none, s)
  | logged {r : LogRecord} {log : LogRun} {n : ℕ} (context : ctx.isSome)
      (record : change.record ctx s.file = (change.write s.file).map fun _ => r)
      (room : s.log.manager.logBuffer.offset + r.logTotLen.toNat ≤ logBufferSize)
      (added : log.added = s.log.added ++ [r.withLsn s.log.manager.globalLsn])
      (persisted : log.Persisted logFile n)
      (forced : s.log.added.length < n ↔ s.log.manager.persistLsn.slt s.log.manager.globalLsn) :
      Logs logFile s ctx change (.ok (some s.log.added.length), { s with log })

theorem logs_logChange (ctx : Option LogContext) {change : RecordChange} (h : s.log.Persisted logFile n)
    (hchange : Loggable change s.file) : Logs logFile s ctx change (runFrom (logChange ctx change) s) := by
  unfold logChange
  cases ctx with
  | none => exact .nothing rfl nofun
  | some ctx =>
    simp only [runFrom_bind, runFrom_get]
    cases hbody : change.body ctx s.file with
    | error e => exact .thrown (RecordChange.record_eq_none fun body heq => absurd (hbody.symm.trans heq) nofun)
    | ok body? =>
      cases body? with
      | none =>
        exact .nothing (RecordChange.record_eq_none fun body heq => absurd (hbody.symm.trans heq) nofun) fun _ =>
          hchange.absent ctx hbody
      | some body =>
        have hrecord := RecordChange.record_eq hbody
        have hfits := hchange.size ctx body hbody
        simp only [map_eq_pure_bind, runFrom_bind]
        by_cases hroom : s.log.manager.logBuffer.offset +
            (LogRecord.construct ctx.txnId body).logTotLen.toNat ≤ logBufferSize
        · obtain ⟨log, n', hrun, hadded, hpersisted, hforced⟩ := addLog_spec h hfits hroom
          simp only [hrun, runFrom_pure]
          exact .logged rfl hrecord hroom hadded hpersisted hforced
        · obtain ⟨e, s', hrun⟩ := addLog_full h hfits hroom
          simp only [hrun]
          apply Logs.stuck
          intro r hr
          rw [hrecord] at hr
          obtain ⟨_, _, rfl⟩ := Option.map_eq_some_iff.mp hr
          exact hroom

/-- The new write is ahead of its record just when the log was not forced. -/
theorem changeSlot_outcome (ctx : Option LogContext) {change : RecordChange} (h : Inv logFile s)
    (hahead : ∀ w ∈ s.writes, w.Ahead logFile s.log.added) (hchange : Loggable change s.file) :
    Outcome logFile (∀ r ∈ change.record ctx s.file,
        s.log.manager.logBuffer.offset + r.logTotLen.toNat ≤ logBufferSize →
          s.log.manager.persistLsn.slt s.log.manager.globalLsn)
      (ended (runFrom (changeSlot ctx change) s)) := by
  obtain ⟨⟨n, hpersisted⟩, hsize⟩ := h
  have hlogs := logs_logChange ctx hpersisted hchange
  rw [changeSlot, runFrom_bind]
  generalize runFrom (logChange ctx change) s = out at hlogs ⊢
  cases hlogs with
  | stuck hfull => exact fun r hr hroom => absurd hroom (hfull r hr)
  | thrown hrecord =>
    rw [hrecord]
    exact ⟨⟨⟨n, hpersisted⟩, hsize⟩, iff_of_true hahead nofun⟩
  | nothing hrecord hwrite =>
    rw [hrecord]
    simp only [writeSlot, runFrom_bind, runFrom_get]
    cases hslot : change.write s.file with
    | none => exact ⟨⟨⟨n, hpersisted⟩, hsize⟩, iff_of_true hahead nofun⟩
    | some file =>
      have hfile := hchange.recordSize file hslot
      refine ⟨⟨⟨n, hpersisted⟩, hfile ▸ hsize⟩, iff_of_true ?_ nofun⟩
      intro w hw
      rcases List.mem_cons.mp hw with rfl | hw
      · intro hlog
        exact absurd (hslot.symm.trans (hwrite hlog)) nofun
      · exact hahead w hw
  | @logged r log n' hcontext hrecord hroom hadded hpersisted' hforced =>
    have hbefore : ∀ w ∈ s.writes, w.Ahead logFile log.added := by
      intro w hw
      rw [hadded]
      exact ahead_append (hahead w hw) _
    rw [hrecord]
    simp only [writeSlot, runFrom_bind, runFrom_get]
    cases hslot : change.write s.file with
    | none => exact ⟨⟨⟨n', hpersisted'⟩, hsize⟩, iff_of_true hbefore nofun⟩
    | some file =>
      have hfile := hchange.recordSize file hslot
      have hnew : SlotWrite.Ahead logFile log.added ⟨ctx.isSome, some s.log.added.length, log.manager.logFile⟩ ↔
          s.log.manager.persistLsn.slt s.log.manager.globalLsn := by
        rw [← hforced]
        constructor
        · intro hall
          obtain ⟨place, hplace, m, hlt, hreaches⟩ := hall hcontext
          obtain rfl := Option.some.inj hplace
          rwa [hpersisted'.reaches.unique hreaches hpersisted'.written]
        · exact fun hlt _ => ⟨_, rfl, n', hlt, hpersisted'.reaches⟩
      have hmeets : (∀ r' ∈ some r, s.log.manager.logBuffer.offset + r'.logTotLen.toNat ≤ logBufferSize →
          s.log.manager.persistLsn.slt s.log.manager.globalLsn) ↔
          s.log.manager.persistLsn.slt s.log.manager.globalLsn :=
        ⟨fun hall => hall r rfl hroom, fun hslt _ _ _ => hslt⟩
      refine ⟨⟨⟨n', hpersisted'⟩, hfile ▸ hsize⟩, Iff.trans ?_ hmeets.symm⟩
      exact List.forall_mem_cons.trans ((and_iff_left hbefore).trans hnew)

theorem loggable_insert {file : RmFile} (hsize : file.hdr.recordSize ≤ rmMaxRecordSize) (buf : Bytes) :
    Loggable (.insert file buf) file.createPageHandle.2 where
  recordSize := by
    intro file' hfile'
    obtain rfl := Option.some.inj hfile'
    rw [file.insertRecord_recordSize, RmFile.createPageHandle_hdr]
  size := by
    intro ctx body hbody
    obtain rfl := Option.some.inj (Except.ok.inj hbody)
    have hcreated := file.createPageHandle_hdr
    have hlen := List.length_take_le file.createPageHandle.2.hdr.recordSize buf
    show 24 + (4 + _ + (8 + (8 + 0))) < 2 ^ 31
    unfold rmMaxRecordSize at hsize
    omega
  absent := fun _ hbody => absurd (Except.ok.inj hbody) nofun

theorem withOld_some {toBody : Bytes → LogBody} {rid : Rid} {file : RmFile}
    (h : RecordChange.withOld toBody rid ctx file = .ok (some body)) :
    ∃ old : Bytes, old.length ≤ file.hdr.recordSize ∧ body = toBody old := by
  unfold RecordChange.withOld at h
  cases hold : file.getRecord ctx.isMvcc rid with
  | error e =>
    rw [hold] at h
    exact absurd h nofun
  | ok old? =>
    rw [hold] at h
    cases old? with
    | none => exact absurd (Except.ok.inj h) nofun
    | some old => exact ⟨old.data, RmFile.getRecord_some hold, (Option.some.inj (Except.ok.inj h)).symm⟩

theorem withOld_none {toBody : Bytes → LogBody} {rid : Rid} {file : RmFile}
    (h : RecordChange.withOld toBody rid ctx file = .ok none) : file.fetchPageHandle rid.pageNo = none := by
  unfold RecordChange.withOld at h
  cases hold : file.getRecord ctx.isMvcc rid with
  | error e =>
    rw [hold] at h
    exact absurd h nofun
  | ok old? =>
    rw [hold] at h
    cases old? with
    | none => exact RmFile.getRecord_none hold
    | some old => exact absurd (Except.ok.inj h) nofun

theorem loggable_delete {file : RmFile} (hsize : file.hdr.recordSize ≤ rmMaxRecordSize) (rid : Rid) :
    Loggable (.delete rid) file where
  recordSize := by
    intro file' hfile'
    simp only [RecordChange.delete] at hfile'
    split at hfile'
    · exact absurd hfile' nofun
    · split at hfile'
      · obtain rfl := Option.some.inj hfile'
        exact file.deleteRecord_recordSize rid
      · exact absurd hfile' nofun
  size := by
    intro ctx body hbody
    dsimp only [RecordChange.delete] at hbody
    obtain ⟨old, hold, rfl⟩ := withOld_some hbody
    show 24 + (4 + _ + (8 + (8 + 0))) < 2 ^ 31
    unfold rmMaxRecordSize at hsize
    omega
  absent := by
    intro ctx hbody
    dsimp only [RecordChange.delete] at hbody ⊢
    rw [withOld_none hbody]

theorem loggable_update {file : RmFile} (hsize : file.hdr.recordSize ≤ rmMaxRecordSize) (rid : Rid) (buf : Bytes) :
    Loggable (.update rid buf) file where
  recordSize := by
    intro file' hfile'
    obtain ⟨_, _, rfl⟩ := Option.map_eq_some_iff.mp hfile'
    exact file.updateRecord_recordSize rid buf
  size := by
    intro ctx body hbody
    dsimp only [RecordChange.update] at hbody
    obtain ⟨old, hold, rfl⟩ := withOld_some hbody
    have hlen := List.length_take_le file.hdr.recordSize buf
    show 24 + (4 * 2 + (_ + _) + (8 + (8 + 0))) < 2 ^ 31
    unfold rmMaxRecordSize at hsize
    omega
  absent := by
    intro ctx hbody
    dsimp only [RecordChange.update] at hbody ⊢
    rw [withOld_none hbody]
    rfl

theorem ended_bind_pure {β : Type} (x : LoggedM α) (b : β) : ended (runFrom (x >>= fun _ => pure b) s) = ended (runFrom x s) := by
  rw [runFrom_bind]
  rcases runFrom x s with ⟨(_ | _) | _, _⟩ <;> rfl

/-- An insertion, a deletion or an update. -/
theorem step_record {call : LoggedCall} (h : Inv logFile s) (hahead : ∀ w ∈ s.writes, w.Ahead logFile s.log.added)
    (hcall : ∀ c, call ≠ .log c) :
    Outcome logFile (∀ r ∈ recordOf s.file call,
        s.log.manager.logBuffer.offset + r.logTotLen.toNat ≤ logBufferSize →
          s.log.manager.persistLsn.slt s.log.manager.globalLsn)
      (step call s) := by
  cases call with
  | log c => exact absurd rfl (hcall c)
  | insertRecord ctx buf =>
    have hcreated : Inv logFile { s with file := s.file.createPageHandle.2 } :=
      ⟨h.persisted, s.file.createPageHandle_hdr ▸ h.recordSize⟩
    have houtcome := changeSlot_outcome ctx hcreated hahead (loggable_insert h.recordSize buf)
    simp only [step, exec, ended_bind_pure, insertRecord, recordOf]
    rw [runFrom_bind, runFrom_get]
    dsimp only
    rw [runFrom_bind, runFrom_modify]
    dsimp only
    split
    · rw [ended_bind_pure]
      exact houtcome
    · exact ⟨hcreated, iff_of_true hahead nofun⟩
  | deleteRecord ctx rid => exact changeSlot_outcome ctx h hahead (loggable_delete h.recordSize rid)
  | updateRecord ctx rid buf => exact changeSlot_outcome ctx h hahead (loggable_update h.recordSize rid buf)

theorem step_forceFlush (lsn : BitVec 32) (h : s.log.Persisted logFile n) : step (.log (.forceFlush lsn)) s =
    some { s with log := ⟨if s.log.manager.persistLsn.slt lsn then s.log.manager.flushed else s.log.manager, s.log.added⟩ } := by
  have hforce := LogManager.runFrom_forceFlushLogToDisk lsn h.unlatched
  simp only [step, exec, LogRun.exec, runFrom_bind, runFrom_get, runFrom_onLog, hforce, runFrom_pure, runFrom_modify]
  rfl

theorem step_add (r : { r : LogRecord // r.Written }) (h : s.log.Persisted logFile n)
    (hfits : s.log.manager.logBuffer.offset + r.val.logTotLen.toNat ≤ logBufferSize) :
    ∃ manager, step (.log (.add r)) s =
        some { s with log := ⟨manager, s.log.added ++ [r.val.withLsn s.log.manager.globalLsn]⟩ } ∧
      manager.persistLsn = s.log.manager.persistLsn ∧
      LogRun.Persisted logFile ⟨manager, s.log.added ++ [r.val.withLsn s.log.manager.globalLsn]⟩ n := by
  obtain ⟨manager, hrun, hrest⟩ := h.add r.property hfits
  refine ⟨manager, ?_, hrest⟩
  simp only [step, exec, LogRun.exec, runFrom_bind, runFrom_get, runFrom_onLog, hrun, runFrom_pure, runFrom_modify]
  rfl

/-- An addition or a flush. -/
theorem step_log {call : LogCall} (h : Inv logFile s) (hstep : step (.log call) s = some s') :
    Inv logFile s' ∧ s'.writes = s.writes ∧ ∃ later, s'.log.added = s.log.added ++ later := by
  obtain ⟨⟨n, hpersisted⟩, hsize⟩ := h
  cases call with
  | add r =>
    by_cases hfits : s.log.manager.logBuffer.offset + r.val.logTotLen.toNat ≤ logBufferSize
    · obtain ⟨manager, hadd, -, hadded⟩ := step_add r hpersisted hfits
      obtain rfl := Option.some.inj (hadd.symm.trans hstep)
      exact ⟨⟨⟨n, hadded⟩, hsize⟩, rfl, _, rfl⟩
    · obtain ⟨e, he⟩ := LogManager.addLogToBuffer_full r.property hpersisted.unlatched hfits
      rcases hrun : runFrom (LogManager.addLogToBuffer r.val) s.log.manager with ⟨res, m'⟩
      rw [hrun] at he
      obtain rfl : res = .error e := he
      simp only [step, exec, LogRun.exec, runFrom_bind, runFrom_get, runFrom_onLog, hrun] at hstep
      cases hstep
  | flush =>
    have hflush := LogManager.runFrom_flushLogToDisk hpersisted.unlatched
    simp only [step, exec, LogRun.exec, runFrom_bind, runFrom_get, runFrom_onLog, hflush, runFrom_pure,
      runFrom_modify] at hstep
    obtain rfl := Option.some.inj hstep
    exact ⟨⟨⟨_, hpersisted.flushed⟩, hsize⟩, rfl, [], (List.append_nil _).symm⟩
  | forceFlush lsn =>
    rw [step_forceFlush lsn hpersisted] at hstep
    obtain rfl := Option.some.inj hstep
    refine ⟨⟨?_, hsize⟩, rfl, [], (List.append_nil _).symm⟩
    cases hslt : s.log.manager.persistLsn.slt lsn with
    | true => exact ⟨_, hpersisted.flushed⟩
    | false => exact ⟨n, hpersisted⟩

/-- Between two calls of a run with no failing one. -/
structure Ordered (logFile : Bytes) (s : LoggedFile) : Prop extends Inv logFile s where
  ahead : ∀ w ∈ s.writes, w.Ahead logFile s.log.added

theorem durable_forceFlush_iff {lsn : BitVec 32} (h : s.log.Persisted logFile n)
    (hassigned : ∃ r ∈ s.log.added, r.lsn = lsn)
    (hstep : step (.log (.forceFlush lsn)) s = some s') : s'.log.Durable logFile lsn ↔
      s.log.manager.persistLsn.slt lsn ∨
        s.log.manager.logFile ≠ logFile ∧ s.log.manager.persistLsn.sle (s.log.manager.globalLsn - 1) := by
  rw [step_forceFlush lsn h] at hstep
  obtain rfl := Option.some.inj hstep
  cases hslt : s.log.manager.persistLsn.slt lsn with
  | true => exact iff_of_true h.flushed.durable_of_flushed (.inl rfl)
  | false =>
    have hnot : ¬s.log.manager.persistLsn.slt lsn := hslt ▸ Bool.false_ne_true
    exact (h.durable_iff_of_not_slt hassigned hnot).trans (or_iff_right Bool.false_ne_true).symm

theorem Ordered.good {call : LoggedCall} (h : Ordered logFile s) (hforces : Forces logFile call s)
    (hstep : step call s = some s') : WriteAhead logFile s call s' ∧ Ordered logFile s' := by
  by_cases hlog : ∃ c, call = .log c
  · obtain ⟨c, rfl⟩ := hlog
    obtain ⟨n, hpersisted⟩ := h.persisted
    obtain ⟨hinv, hwrites, later, hadded⟩ := step_log h.toInv hstep
    have hahead : ∀ w ∈ s'.writes, w.Ahead logFile s'.log.added := by
      rw [hwrites, hadded]
      exact fun w hw => ahead_append (h.ahead w hw) later
    refine ⟨⟨fun lsn hcall hassigned => ?_, hahead⟩, hinv, hahead⟩
    rw [hcall] at hstep
    exact (durable_forceFlush_iff hpersisted hassigned hstep).mpr (hforces.1 lsn hcall hassigned)
  · have hrecord : ∀ c, call ≠ .log c := fun c hcall => hlog ⟨c, hcall⟩
    have houtcome := step_record h.toInv h.ahead hrecord
    rw [hstep] at houtcome
    have hahead := houtcome.2.mpr hforces.2
    exact ⟨⟨fun lsn hcall => absurd hcall (hrecord _), hahead⟩, houtcome.1, hahead⟩

theorem Ordered.bad {call : LoggedCall} (h : Ordered logFile s) (hforces : ¬Forces logFile call s) :
    ∃ s', step call s = some s' ∧ ¬WriteAhead logFile s call s' := by
  rcases not_and_or.mp hforces with hlsn | hrecord
  · obtain ⟨n, hpersisted⟩ := h.persisted
    simp only [not_forall] at hlsn
    obtain ⟨lsn, rfl, hassigned, hnot⟩ := hlsn
    have hstep := step_forceFlush lsn hpersisted
    refine ⟨_, hstep, fun hwrite => hnot ?_⟩
    exact (durable_forceFlush_iff hpersisted hassigned hstep).mp (hwrite.durable lsn rfl hassigned)
  · have hcall : ∀ c, call ≠ .log c := by
      rintro c rfl
      exact hrecord nofun
    have houtcome := step_record h.toInv h.ahead hcall
    cases hstep : step call s with
    | none =>
      rw [hstep] at houtcome
      exact absurd houtcome hrecord
    | some s' =>
      rw [hstep] at houtcome
      exact ⟨s', rfl, fun hwrite => hrecord (houtcome.2.mp hwrite.ahead)⟩

theorem start_ordered {recordSize : ℤ} {diskHdr : Bytes} (hcreate : RmFile.createFile recordSize = some diskHdr)
    (pages : ℤ → Bytes) (persistLsn : BitVec 32) (logFile : Bytes) :
    Ordered logFile (start persistLsn logFile (.openFile diskHdr pages)) where
  persisted := ⟨0, LogRun.start_persisted persistLsn logFile⟩
  recordSize := by
    unfold RmFile.createFile at hcreate
    split at hcreate
    · exact absurd hcreate nofun
    · rename_i hrange
      obtain rfl := Option.some.inj hcreate
      have hle : recordSize.toNat ≤ rmMaxRecordSize := by omega
      have hfits := RmFile.fits_create hle
      simp only [start, RmFile.openFile]
      rw [RmFile.decode_encode hfits (by simp [RmFile.createHdr]) (by simp [RmFile.createHdr, rmNoPage])]
      exact hle
  ahead := nofun

/-- From a new manager over any log file and any value of `persist_lsn_`, every forced flush that returns makes the
records up to its number durable and every change of a slot follows its record to disk, as long as the calls force the
log. -/
theorem writeAhead_along_iff {recordSize : ℤ} {diskHdr : Bytes} (hcreate : RmFile.createFile recordSize = some diskHdr)
    (pages : ℤ → Bytes) (persistLsn : BitVec 32) (logFile : Bytes) (calls : List LoggedCall) :
    Along step (WriteAhead logFile) calls (start persistLsn logFile (.openFile diskHdr pages)) ↔
      AllMeet step (Forces logFile) calls (start persistLsn logFile (.openFile diskHdr pages)) :=
  along_iff (fun _ _ _ hinv hforces hstep => hinv.good hforces hstep) (fun _ _ hinv hforces => hinv.bad hforces)
    (start_ordered hcreate pages persistLsn logFile)

/-- The first record, and a forced flush up to it. -/
def firstForced : List LoggedCall := [.log (.add ⟨.construct 0 .begin, ⟨rfl, by decide⟩⟩), .log (.forceFlush 0)]

def emptyLog (persistLsn : BitVec 32) : LoggedFile :=
  start persistLsn [] (.openFile (RmFile.createHdr 4).encode fun _ => [])

/-- `persist_lsn_` starts at -1. -/
theorem writeAhead_firstForced : Along step (WriteAhead []) firstForced (emptyLog (-1)) := by
  have hcreate : RmFile.createFile 4 = some (RmFile.createHdr 4).encode := rfl
  apply (writeAhead_along_iff hcreate _ (-1) [] firstForced).mpr
  refine ⟨⟨nofun, nofun⟩, fun s' hstep => ⟨⟨fun lsn hcall _ => .inl ?_, nofun⟩, fun _ _ => trivial⟩⟩
  obtain ⟨manager, hadd, hpersist, -⟩ := step_add (s := emptyLog (-1)) ⟨.construct 0 .begin, ⟨rfl, by decide⟩⟩
    (LogRun.start_persisted (-1) []) (by decide)
  obtain rfl := Option.some.inj (hadd.symm.trans hstep)
  cases hcall
  show manager.persistLsn.slt 0
  rw [hpersist]
  rfl

/-- `persist_lsn_` starts at 0, and the record stays in the buffer. -/
theorem not_writeAhead_firstForced : ¬Along step (WriteAhead []) firstForced (emptyLog 0) := by
  intro halong
  obtain ⟨manager, hadd, hpersist, hadded⟩ := step_add (s := emptyLog 0) ⟨.construct 0 .begin, ⟨rfl, by decide⟩⟩
    (LogRun.start_persisted 0 []) (by decide)
  obtain ⟨s, hs⟩ : ∃ s : LoggedFile, s = { emptyLog 0 with
      log := ⟨manager, [(LogRecord.construct 0 .begin).withLsn 0]⟩ } := ⟨_, rfl⟩
  have hlog : s.log.Persisted [] 0 := by
    rw [hs]
    exact hadded
  have hforce := step_forceFlush 0 hlog
  have hassigned : ∃ r ∈ s.log.added, r.lsn = 0 := by
    rw [hs]
    exact ⟨_, List.mem_cons_self, rfl⟩
  have hdurable := ((halong s (hs ▸ hadd)).2 _ hforce).1.durable 0 rfl hassigned
  rcases (durable_forceFlush_iff hlog hassigned hforce).mp hdurable with hslt | ⟨hwritten, -⟩
  · have hzero : s.log.manager.persistLsn = 0 := by
      rw [hs]
      exact hpersist
    rw [hzero] at hslt
    exact absurd hslt Bool.false_ne_true
  · exact absurd (hlog.logFile_ne_iff.mp hwritten) (Nat.lt_irrefl 0)

end LoggedFile
end Rmdb
