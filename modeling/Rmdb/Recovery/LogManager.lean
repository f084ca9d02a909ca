import Rmdb.Recovery.LogRecord
import Rmdb.Lib.Program
import Rmdb.Lib.Runs

/-! The log manager: one buffer under one latch, and the log file behind it. -/
namespace Rmdb

open Program

def logBufferSize : ℕ := 1024 * pageSize

/-- The bytes before `offset` wait to be written to the log file. -/
structure LogBuffer where
  buffer : Bytes
  offset : ℕ
  size : buffer.length = logBufferSize + 1

namespace LogBuffer

def start : LogBuffer where
  buffer := List.replicate (logBufferSize + 1) 0
  offset := 0
  size := List.length_replicate

/-- The sum is an `int`. -/
def isFull (b : LogBuffer) (appendSize : BitVec 32) : Bool :=
  (logBufferSize : ℤ) < (BitVec.ofNat 32 b.offset + appendSize).toInt

def written (b : LogBuffer) : Bytes := b.buffer.take b.offset

/-- Bytes copied to the offset and the offset moved on, unless they end outside the buffer. -/
def append (b : LogBuffer) (bytes : Bytes) (appendSize : BitVec 32) : Option LogBuffer :=
  if h : b.offset + bytes.length ≤ b.buffer.length then
    some {
      buffer := b.buffer.take b.offset ++ (bytes ++ b.buffer.drop (b.offset + bytes.length))
      offset := b.offset + appendSize.toNat
      size := by
        simp only [List.length_append, List.length_take, List.length_drop]
        have := b.size
        omega }
  else none

end LogBuffer

/-- `persist_lsn_` is not initialised. -/
structure LogManager where
  globalLsn : BitVec 32
  latch : Bool
  logBuffer : LogBuffer
  persistLsn : BitVec 32
  logFile : Bytes

inductive LogError where
  /-- The thread waits for the latch that it holds. -/
  | deadlock
  /-- A write behind the end of the buffer. -/
  | overflow
deriving DecidableEq, Repr

abbrev LogM := ExceptT LogError (StateM LogManager)

namespace LogManager

def start (persistLsn : BitVec 32) (logFile : Bytes) : LogManager where
  globalLsn := 0
  latch := false
  logBuffer := .start
  persistLsn := persistLsn
  logFile := logFile

/-- The latch is not recursive. -/
def withLatch {α : Type} (x : LogM α) : LogM α := do
  if (← get).latch then throw .deadlock
  modify fun m => { m with latch := true }
  let a ← x
  modify fun m => { m with latch := false }
  return a

/-- What both flushes do with a buffer that is not empty. -/
def writeLog : LogM Unit := do
  if 0 < (← get).logBuffer.offset then
    modify fun m => { m with
      logFile := m.logFile ++ m.logBuffer.written
      persistLsn := m.globalLsn - 1
      logBuffer := { m.logBuffer with offset := 0 } }

def flushLogToDisk : LogM Unit := withLatch writeLog

def forceFlushLogToDisk (lsn : BitVec 32) : LogM Unit := withLatch do
  if (← get).persistLsn.slt lsn then writeLog

/-- The number that the record gets, also in the record itself. -/
def addLogToBuffer (r : LogRecord) : LogM (BitVec 32) := withLatch do
  if (← get).logBuffer.isFull r.logTotLen then flushLogToDisk
  let lsn := (← get).globalLsn
  modify fun m => { m with globalLsn := m.globalLsn + 1 }
  match (← get).logBuffer.append (r.withLsn lsn).serialize r.logTotLen with
  | none => throw .overflow
  | some logBuffer => modify fun m => { m with logBuffer }
  return lsn

end LogManager

inductive LogCall where
  | add (r : { r : LogRecord // r.Written })
  | flush
  | forceFlush (lsn : BitVec 32)

/-- The manager, and the records added so far with the numbers that they got. -/
structure LogRun where
  manager : LogManager
  added : List LogRecord

namespace LogRun

def start (persistLsn : BitVec 32) (logFile : Bytes) : LogRun := ⟨.start persistLsn logFile, []⟩

def exec (call : LogCall) (added : List LogRecord) : LogM (List LogRecord) :=
  match call with
  | .add r => do
    let lsn ← LogManager.addLogToBuffer r.val
    return added ++ [r.val.withLsn lsn]
  | .flush => do
    LogManager.flushLogToDisk
    return added
  | .forceFlush lsn => do
    LogManager.forceFlushLogToDisk lsn
    return added

/-- The state behind a call, if the call returns. -/
def step (call : LogCall) (run : LogRun) : Option LogRun :=
  match runFrom (exec call run.added) run.manager with
  | (.ok added, manager) => some ⟨manager, added⟩
  | (.error _, _) => none

/-- On disk and in the buffer is the log that was there and then the added records, with rising
numbers. -/
structure ExactLog (logFile : Bytes) (run : LogRun) : Prop where
  log : run.manager.logFile ++ run.manager.logBuffer.written = logFile ++ run.added.flatMap LogRecord.serialize
  rising : run.added.Pairwise fun r r' => r.lsn.toInt < r'.lsn.toInt

/-- A record fits into what is left of the buffer, and there is a number left for it. -/
def Fits : LogCall → LogRun → Prop
  | .add r, run => run.manager.logBuffer.offset + r.val.logTotLen.toNat ≤ logBufferSize ∧
      run.manager.globalLsn.toNat < 2 ^ 31
  | _, _ => True

/-- Between two calls. -/
structure Inv (logFile : Bytes) (run : LogRun) : Prop extends ExactLog logFile run where
  unlatched : run.manager.latch = false
  offset_le : run.manager.logBuffer.offset ≤ logBufferSize
  globalLsn : run.manager.globalLsn.toNat = run.added.length
  numbers_le : run.added.length ≤ 2 ^ 31
  numbered : ∀ r ∈ run.added, r.lsn.toNat < run.added.length

end LogRun

theorem LogBuffer.isFull_eq {b : LogBuffer} {appendSize : BitVec 32} (hsum : b.offset + appendSize.toNat < 2 ^ 31) :
    b.isFull appendSize = decide (logBufferSize < b.offset + appendSize.toNat) := by
  have hnat : (BitVec.ofNat 32 b.offset + appendSize).toNat = b.offset + appendSize.toNat := by
    rw [BitVec.toNat_add, BitVec.toNat_ofNat]
    omega
  have hint : (BitVec.ofNat 32 b.offset + appendSize).toInt = ((b.offset + appendSize.toNat : ℕ) : ℤ) := by
    rw [BitVec.toInt_eq_toNat_of_lt (by omega), hnat]
  rw [isFull, hint]
  exact decide_eq_decide.mpr Int.ofNat_lt

theorem LogBuffer.append_written {b b' : LogBuffer} {bytes : Bytes} {appendSize : BitVec 32}
    (h : b.append bytes appendSize = some b') (hlen : bytes.length = appendSize.toNat) :
    b'.written = b.written ++ bytes := by
  unfold append at h
  split at h
  · rename_i hfits
    obtain rfl := Option.some.inj h
    have hoffset : (b.buffer.take b.offset).length = b.offset := by
      rw [List.length_take]
      omega
    simp only [written]
    rw [← List.append_assoc]
    apply List.take_left'
    rw [List.length_append, hoffset, hlen]
  · exact absurd h nofun

namespace LogManager

variable {m : LogManager} {α : Type}

theorem runFrom_withLatch (x : LogM α) (hlatch : m.latch = false) :
    runFrom (withLatch x) m =
      match runFrom x { m with latch := true } with
      | (.ok a, m') => (.ok a, { m' with latch := false })
      | (.error e, m') => (.error e, m') := by
  simp only [withLatch, runFrom_bind, runFrom_get, hlatch, Bool.false_eq_true, if_false, runFrom_pure,
    runFrom_modify]
  rcases runFrom x { m with latch := true } with ⟨_ | _, _⟩ <;> rfl

theorem runFrom_withLatch_held (x : LogM α) (hlatch : m.latch = true) :
    runFrom (withLatch x) m = (.error .deadlock, m) := by
  simp only [withLatch, runFrom_bind, runFrom_get, hlatch, if_true, runFrom_throw]

/-- A flush moves bytes from the buffer to the file and changes nothing else that matters. -/
structure Flushes (m m' : LogManager) : Prop where
  log : m'.logFile ++ m'.logBuffer.written = m.logFile ++ m.logBuffer.written
  offset_le : m'.logBuffer.offset ≤ m.logBuffer.offset
  globalLsn : m'.globalLsn = m.globalLsn
  latch : m'.latch = m.latch

theorem Flushes.refl (m : LogManager) : Flushes m m := ⟨rfl, Nat.le_refl _, rfl, rfl⟩

/-- With what is in the buffer in the file. -/
def flushed (m : LogManager) : LogManager :=
  if 0 < m.logBuffer.offset then
    { m with
      logFile := m.logFile ++ m.logBuffer.written
      persistLsn := m.globalLsn - 1
      logBuffer := { m.logBuffer with offset := 0 } }
  else m

theorem runFrom_writeLog (m : LogManager) : runFrom writeLog m = (.ok (), m.flushed) := by
  simp only [writeLog, flushed, runFrom_bind, runFrom_get]
  split
  · exact runFrom_modify _
  · exact runFrom_pure _

theorem flushes_flushed (m : LogManager) : Flushes m m.flushed := by
  unfold flushed
  split
  · refine ⟨?_, Nat.zero_le _, rfl, rfl⟩
    change (m.logFile ++ m.logBuffer.written) ++ m.logBuffer.buffer.take 0 = _
    rw [List.take_zero, List.append_nil]
  · exact .refl m

/-- The latch is taken for a flush and given back. -/
theorem unlatch_flushed (hlatch : m.latch = false) :
    { flushed { m with latch := true } with latch := false } = m.flushed := by
  unfold flushed
  dsimp only
  rw [← hlatch]
  split
  · rfl
  · rfl

theorem runFrom_flushLogToDisk (hlatch : m.latch = false) : runFrom flushLogToDisk m = (.ok (), m.flushed) := by
  rw [flushLogToDisk, runFrom_withLatch _ hlatch, runFrom_writeLog]
  exact congrArg (Prod.mk _) (unlatch_flushed hlatch)

theorem runFrom_forceFlushLogToDisk (lsn : BitVec 32) (hlatch : m.latch = false) :
    runFrom (forceFlushLogToDisk lsn) m = (.ok (), if m.persistLsn.slt lsn then m.flushed else m) := by
  rw [forceFlushLogToDisk, runFrom_withLatch _ hlatch]
  simp only [runFrom_bind, runFrom_get]
  cases m.persistLsn.slt lsn with
  | true =>
    simp only [if_true, runFrom_writeLog]
    exact congrArg (Prod.mk _) (unlatch_flushed hlatch)
  | false =>
    simp only [Bool.false_eq_true, if_false, runFrom_pure]
    rw [← hlatch]

theorem flushLogToDisk_spec (hlatch : m.latch = false) :
    ∃ m', runFrom flushLogToDisk m = (.ok (), m') ∧ Flushes m m' :=
  ⟨_, runFrom_flushLogToDisk hlatch, flushes_flushed m⟩

theorem forceFlushLogToDisk_spec (lsn : BitVec 32) (hlatch : m.latch = false) :
    ∃ m', runFrom (forceFlushLogToDisk lsn) m = (.ok (), m') ∧ Flushes m m' := by
  refine ⟨_, runFrom_forceFlushLogToDisk lsn hlatch, ?_⟩
  split
  · exact flushes_flushed m
  · exact .refl m

/-- A record that fits is written behind what is in the buffer. -/
theorem addLogToBuffer_spec {r : LogRecord} (hr : r.Written) (hlatch : m.latch = false)
    (hfits : m.logBuffer.offset + r.logTotLen.toNat ≤ logBufferSize) :
    ∃ logBuffer, runFrom (addLogToBuffer r) m =
        (.ok m.globalLsn, { m with globalLsn := m.globalLsn + 1, logBuffer }) ∧
      logBuffer.written = m.logBuffer.written ++ (r.withLsn m.globalLsn).serialize ∧
      logBuffer.offset = m.logBuffer.offset + r.logTotLen.toNat := by
  have hsize : logBufferSize = 4194304 := rfl
  have hlen : (r.withLsn m.globalLsn).serialize.length = r.logTotLen.toNat :=
    (hr.withLsn m.globalLsn).length_serialize
  have hfull : m.logBuffer.isFull r.logTotLen = false := by
    rw [LogBuffer.isFull_eq (by omega)]
    exact decide_eq_false (by omega)
  have hroom : m.logBuffer.offset + (r.withLsn m.globalLsn).serialize.length ≤
      m.logBuffer.buffer.length := by
    have := m.logBuffer.size
    omega
  obtain ⟨b, hb, hoffset⟩ : ∃ b, m.logBuffer.append (r.withLsn m.globalLsn).serialize r.logTotLen = some b ∧
      b.offset = m.logBuffer.offset + r.logTotLen.toNat := by
    rw [LogBuffer.append, dif_pos hroom]
    exact ⟨_, rfl, rfl⟩
  refine ⟨b, ?_, LogBuffer.append_written hb hlen, hoffset⟩
  rw [addLogToBuffer, runFrom_withLatch _ hlatch]
  simp only [runFrom_bind, runFrom_get, hfull, Bool.false_eq_true, if_false, runFrom_pure, runFrom_modify, hb]
  rw [← hlatch]

/-- A record that does not fit is never added. -/
theorem addLogToBuffer_full {r : LogRecord} (hr : r.Written) (hlatch : m.latch = false)
    (hfull : ¬m.logBuffer.offset + r.logTotLen.toNat ≤ logBufferSize) :
    ∃ e, (runFrom (addLogToBuffer r) m).1 = .error e := by
  have hsize : logBufferSize = 4194304 := rfl
  have hlen : (r.withLsn m.globalLsn).serialize.length = r.logTotLen.toNat :=
    (hr.withLsn m.globalLsn).length_serialize
  rw [addLogToBuffer, runFrom_withLatch _ hlatch]
  simp only [runFrom_bind, runFrom_get]
  cases hb : m.logBuffer.isFull r.logTotLen with
  | true =>
    -- The flush takes the latch that the call holds.
    simp only [if_true, flushLogToDisk, runFrom_bind, runFrom_withLatch_held]
    exact ⟨.deadlock, rfl⟩
  | false =>
    -- Only a sum that does not fit an `int` hides that the buffer is full.
    have hnone : m.logBuffer.append (r.withLsn m.globalLsn).serialize r.logTotLen = none := by
      apply dif_neg
      rw [hlen, m.logBuffer.size]
      intro hle
      rw [LogBuffer.isFull_eq (by omega)] at hb
      exact hfull (Nat.le_of_not_lt (of_decide_eq_false hb))
    simp only [Bool.false_eq_true, if_false, runFrom_bind, runFrom_get, runFrom_modify, hnone, runFrom_throw]
    exact ⟨.overflow, rfl⟩

end LogManager

namespace LogRun

open Runs

variable {logFile : Bytes} {run run' : LogRun} {call : LogCall}

theorem Inv.flushes (h : Inv logFile run) {m' : LogManager} (hflush : LogManager.Flushes run.manager m') :
    Inv logFile ⟨m', run.added⟩ where
  log := hflush.log.trans h.log
  rising := h.rising
  unlatched := hflush.latch.trans h.unlatched
  offset_le := Nat.le_trans hflush.offset_le h.offset_le
  globalLsn := (congrArg BitVec.toNat hflush.globalLsn).trans h.globalLsn
  numbers_le := h.numbers_le
  numbered := h.numbered

theorem step_add {r : { r : LogRecord // r.Written }} (h : Inv logFile run)
    (hfits : run.manager.logBuffer.offset + r.val.logTotLen.toNat ≤ logBufferSize) :
    ∃ run', step (.add r) run = some run' ∧
      run'.added = run.added ++ [r.val.withLsn run.manager.globalLsn] ∧
      run'.manager.globalLsn = run.manager.globalLsn + 1 ∧ run'.manager.latch = false ∧
      run'.manager.logBuffer.offset = run.manager.logBuffer.offset + r.val.logTotLen.toNat ∧
      run'.manager.logFile ++ run'.manager.logBuffer.written =
        logFile ++ run'.added.flatMap LogRecord.serialize := by
  obtain ⟨b, hrun, hwritten, hoffset⟩ := LogManager.addLogToBuffer_spec r.property h.unlatched hfits
  refine ⟨⟨{ run.manager with globalLsn := run.manager.globalLsn + 1, logBuffer := b }, _⟩, ?_, rfl, rfl,
    h.unlatched, hoffset, ?_⟩
  · simp only [step, exec, runFrom_bind, hrun, runFrom_pure]
  · simp only [hwritten, List.flatMap_append, List.flatMap_singleton]
    rw [← List.append_assoc, h.log, List.append_assoc]

theorem Inv.good (h : Inv logFile run) (hfits : Fits call run) :
    ∃ run', step call run = some run' ∧ ExactLog logFile run' ∧ Inv logFile run' := by
  cases call with
  | add r =>
    obtain ⟨hroom, hnumber⟩ := hfits
    obtain ⟨run', hstep, hadded, hglobal, hlatch, hoffset, hlog⟩ := step_add h hroom
    have hcount := h.globalLsn
    have hlength : run'.added.length = run.added.length + 1 := by
      rw [hadded, List.length_append, List.length_singleton]
    have hrising : run'.added.Pairwise fun r r' => r.lsn.toInt < r'.lsn.toInt := by
      rw [hadded, List.pairwise_append]
      refine ⟨h.rising, List.pairwise_singleton _ _, fun r₀ hr₀ r₁ hr₁ => ?_⟩
      obtain rfl := List.mem_singleton.mp hr₁
      have hlt := h.numbered r₀ hr₀
      change r₀.lsn.toInt < run.manager.globalLsn.toInt
      rw [BitVec.toInt_eq_toNat_of_lt (by omega), BitVec.toInt_eq_toNat_of_lt (by omega)]
      omega
    refine ⟨run', hstep, ⟨hlog, hrising⟩, ⟨hlog, hrising⟩, hlatch, by omega, ?_, by omega, ?_⟩
    · rw [hglobal, BitVec.toNat_add, hlength]
      simp
      omega
    · intro r₀ hr₀
      rw [hadded] at hr₀
      rcases List.mem_append.mp hr₀ with hr₀ | hr₀
      · have := h.numbered r₀ hr₀
        omega
      · obtain rfl := List.mem_singleton.mp hr₀
        change run.manager.globalLsn.toNat < run'.added.length
        omega
  | flush =>
    obtain ⟨m', hrun, hflush⟩ := LogManager.flushLogToDisk_spec h.unlatched
    have hinv := h.flushes hflush
    refine ⟨_, ?_, hinv.toExactLog, hinv⟩
    simp only [step, exec, runFrom_bind, hrun, runFrom_pure]
  | forceFlush lsn =>
    obtain ⟨m', hrun, hflush⟩ := LogManager.forceFlushLogToDisk_spec lsn h.unlatched
    have hinv := h.flushes hflush
    refine ⟨_, ?_, hinv.toExactLog, hinv⟩
    simp only [step, exec, runFrom_bind, hrun, runFrom_pure]

theorem Inv.bad (h : Inv logFile run) (hfits : ¬Fits call run) (hstep : step call run = some run') :
    ¬ExactLog logFile run' := by
  cases call with
  | add r =>
    by_cases hroom : run.manager.logBuffer.offset + r.val.logTotLen.toNat ≤ logBufferSize
    · -- All numbers that are not negative are given away.
      have hnumber : 2 ^ 31 ≤ run.manager.globalLsn.toNat :=
        Nat.le_of_not_lt fun hlt => hfits ⟨hroom, hlt⟩
      have hcount := h.globalLsn
      have hle := h.numbers_le
      obtain ⟨run'', hstep', hadded, _⟩ := step_add h hroom
      obtain rfl := Option.some.inj (hstep'.symm.trans hstep)
      intro hexact
      have hrising := hexact.rising
      rw [hadded, List.pairwise_append] at hrising
      have hpos : 0 < run.added.length := by omega
      have hmem := List.getElem_mem hpos
      have hlt : _ < run.manager.globalLsn.toInt := hrising.2.2 _ hmem _ List.mem_cons_self
      have hfirst := h.numbered _ hmem
      rw [BitVec.toInt_eq_toNat_of_lt (by omega)] at hlt
      have hneg : run.manager.globalLsn.toInt < 0 := by
        rw [BitVec.toInt_eq_toNat_cond]
        omega
      omega
    · obtain ⟨e, he⟩ := LogManager.addLogToBuffer_full r.property h.unlatched hroom
      simp only [step, exec, runFrom_bind] at hstep
      rcases hrun : runFrom (LogManager.addLogToBuffer r.val) run.manager with ⟨res, m'⟩
      rw [hrun] at he hstep
      obtain rfl : res = .error e := he
      exact absurd hstep nofun
  | flush => exact absurd trivial hfits
  | forceFlush lsn => exact absurd trivial hfits

theorem start_inv (persistLsn : BitVec 32) (logFile : Bytes) : Inv logFile (start persistLsn logFile) where
  log := by
    change logFile ++ List.take 0 _ = _
    rw [List.take_zero]
    rfl
  rising := List.Pairwise.nil
  unlatched := rfl
  offset_le := Nat.zero_le _
  globalLsn := rfl
  numbers_le := Nat.zero_le _
  numbered := nofun

/-- From a new manager, every call returns and leaves just the added records in the log, if and only
if every record finds room in the buffer and a number. -/
theorem exactLog_iff_fits (persistLsn : BitVec 32) (logFile : Bytes) (calls : List LogCall) :
    Throughout step (fun _ _ run => ExactLog logFile run) calls (start persistLsn logFile) ↔
      AllMeet step Fits calls (start persistLsn logFile) :=
  throughout_iff (fun _ _ hinv hfits => hinv.good hfits)
    (fun _ _ hinv hfits _ hstep => hinv.bad hfits hstep) calls (start_inv persistLsn logFile)

/-- Records of one length find room only until the buffer is full. -/
theorem Inv.offset_of_allMeet {r : { r : LogRecord // r.Written }} (h : Inv logFile run) {count : ℕ}
    (hfits : AllMeet step Fits (List.replicate count (.add r)) run) :
    run.manager.logBuffer.offset + count * r.val.logTotLen.toNat ≤ logBufferSize := by
  induction count generalizing run with
  | zero =>
    have := h.offset_le
    omega
  | succ count ih =>
    obtain ⟨hfit, hrest⟩ := hfits
    obtain ⟨run', hstep, _, hinv⟩ := h.good hfit
    have hle := ih hinv (hrest run' hstep)
    obtain ⟨run'', hstep', _, _, _, hoffset, _⟩ := step_add h hfit.1
    obtain rfl := Option.some.inj (hstep.symm.trans hstep')
    rw [hoffset] at hle
    rw [Nat.succ_mul]
    omega

/-- So many BEGIN records that the last one finds the buffer full. -/
theorem not_exactLog_full :
    ¬Throughout step (fun _ _ run => ExactLog [] run)
      (List.replicate 174763 (.add ⟨.construct 0 .begin, ⟨rfl, by decide⟩⟩)) (start 0 []) := by
  intro h
  have hmeet := (throughout_iff (fun _ _ hinv hfits => hinv.good hfits)
    (fun _ _ hinv hfits _ hstep => hinv.bad hfits hstep) _ (start_inv 0 [])).mp h
  have hle := (start_inv 0 []).offset_of_allMeet hmeet
  change 0 + 174763 * 24 ≤ 1024 * 4096 at hle
  omega

end LogRun
end Rmdb
