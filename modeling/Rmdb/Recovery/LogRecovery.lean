import Rmdb.Recovery.LogManager
import Rmdb.Storage.BufferPool
import Mathlib.Data.List.Induction

/-! The analysis of the log at a restart: the log file is read piece by piece into one buffer, and each
piece is taken to hold whole records. -/
namespace Rmdb

/-- The bytes that `read_log` delivers; `none` stands for -1. The size of the file is an `int`. -/
def readLog (logFile : Bytes) (size offset : ℕ) : Option Bytes :=
  let fileSize := int32 logFile.length
  if fileSize < offset then none
  else some ((logFile.drop offset).take (min size (fileSize - offset).toNat))

/-- The two tables; an absent page has no entries. -/
structure RecoveryManager where
  activeTransactionTable : BitVec 64 → Option (BitVec 32)
  dirtyPageTable : PageId → List (BitVec 32)

namespace LogBody

def Ends : LogBody → Prop
  | commit => True
  | abort => True
  | _ => False

/-- Where a record changes a table. -/
def place? : LogBody → Option LogPlace
  | insert _ place => some place
  | delete _ place => some place
  | update _ _ place => some place
  | _ => none

end LogBody

namespace RecoveryManager

def clear : RecoveryManager where
  activeTransactionTable _ := none
  dirtyPageTable _ := []

def beginTxn (rm : RecoveryManager) (txnId : BitVec 64) (lsn : BitVec 32) : RecoveryManager :=
  { rm with activeTransactionTable := Function.update rm.activeTransactionTable txnId (some lsn) }

def eraseTxn (rm : RecoveryManager) (txnId : BitVec 64) : RecoveryManager :=
  { rm with activeTransactionTable := Function.update rm.activeTransactionTable txnId none }

/-- All tables are taken to be in the file 0. -/
def pushRedo (rm : RecoveryManager) (pageNo lsn : BitVec 32) : RecoveryManager :=
  let pageId : PageId := ⟨0, pageNo.toInt⟩
  { rm with dirtyPageTable := Function.update rm.dirtyPageTable pageId (rm.dirtyPageTable pageId ++ [lsn]) }

/-- The buffer from a place on, if so many bytes there are within it. -/
def bytesAt (buffer : Bytes) (place : ℤ) (size : ℕ) : Option Bytes :=
  if 0 ≤ place ∧ place.toNat + size ≤ buffer.length then some (buffer.drop place.toNat) else none

def wordAt (buffer : Bytes) (place : ℤ) : Option (BitVec 32) := (bytesAt buffer place 4).map readWord

/-- The place behind the image that starts here. -/
def skipValue (buffer : Bytes) (place : ℤ) : Option ℤ :=
  (wordAt buffer place).map fun recordSize => int32 (place + (4 + recordSize.toInt))

/-- The page number of the `Rid` at a place. -/
def pageNoAt (buffer : Bytes) (place : ℤ) : Option (BitVec 32) := (bytesAt buffer place 8).map readWord

/-- What a record of this type does to the tables. -/
def analyzeType (buffer : Bytes) (data : ℤ) (txnId : BitVec 64) (lsn : BitVec 32) (rm : RecoveryManager) :
    LogType → Option RecoveryManager
  | .begin => some (rm.beginTxn txnId lsn)
  | .commit => some (rm.eraseTxn txnId)
  | .abort => some (rm.eraseTxn txnId)
  | .insert => do
    let rid ← skipValue buffer data
    return rm.pushRedo (← pageNoAt buffer rid) lsn
  | .delete => do
    let rid ← skipValue buffer data
    return rm.pushRedo (← pageNoAt buffer rid) lsn
  | .update => do
    let newValue ← skipValue buffer data
    let rid ← skipValue buffer newValue
    return rm.pushRedo (← pageNoAt buffer rid) lsn

/-- One record, and the place of the next one. It fails where a read leaves the buffer, and where the
type has no name to be printed. -/
def analyzeRecord (buffer : Bytes) (place : ℤ) (rm : RecoveryManager) : Option (RecoveryManager × ℤ) := do
  let typeWord ← wordAt buffer (place + offsetLogType)
  let lsn ← wordAt buffer (place + offsetLsn)
  let logTotLen ← wordAt buffer (place + offsetLogTotLen)
  let txnId ← (bytesAt buffer (place + offsetLogTid) 8).map readDword
  let type ← LogType.ofWord typeWord
  let rm ← analyzeType buffer (place + offsetLogData) txnId lsn rm type
  return (rm, int32 (place + logTotLen.toNat))

/-- The records in the bytes that were read; it fails where there are more records than fuel. -/
def analyzeBuffer (buffer : Bytes) (bytesRead : ℕ) : ℕ → ℤ → RecoveryManager → Option RecoveryManager
  | fuel, place, rm =>
    if place < bytesRead then
      match fuel with
      | 0 => none
      | fuel + 1 =>
        (analyzeRecord buffer place rm).bind fun (rm, place) => analyzeBuffer buffer bytesRead fuel place rm
    else some rm

/-- What the buffer holds behind the bytes just read is left from before. -/
def analyzeFrom (logFile : Bytes) : ℕ → Bytes → ℕ → RecoveryManager → Option RecoveryManager
  | 0, _, _, _ => none
  | fuel + 1, buffer, offset, rm =>
    match readLog logFile logBufferSize offset with
    | none => some rm
    | some [] => some rm
    | some bytes =>
      let buffer := bytes ++ buffer.drop bytes.length
      (analyzeBuffer buffer bytes.length bytes.length 0 rm).bind fun rm =>
        analyzeFrom logFile fuel buffer (offset + bytes.length) rm

/-- The tables after the analysis. The buffer is not initialised. -/
def analyze (stale : Vector UInt8 logBufferSize) (logFile : Bytes) : Option RecoveryManager :=
  analyzeFrom logFile (logFile.length + 1) stale.toList 0 clear

/-! ### What the analysis should find -/

/-- The tables are those of the log: which transactions did not end, and for each page of each table,
whose file may be any, the changes made to it. -/
structure Exact (records : List LogRecord) (rm : RecoveryManager) : Prop where
  active : ∀ txnId, (rm.activeTransactionTable txnId).isSome ↔
    (∃ r ∈ records, r.logTid = txnId) ∧ ¬∃ r ∈ records, r.logTid = txnId ∧ r.body.Ends
  dirty : ∃ fd : Bytes → ℤ, ∀ tableName pageNo, rm.dirtyPageTable ⟨fd tableName, pageNo⟩ =
    (records.filter fun r => r.body.place?.any fun place =>
      place.tableName = tableName ∧ place.pageNo.toInt = pageNo).map LogRecord.lsn

/-- A BEGIN that no COMMIT or ABORT of the same transaction follows. -/
def Open (records : List LogRecord) (txnId : BitVec 64) : Prop :=
  ∃ before r after, records = before ++ r :: after ∧ r.logTid = txnId ∧ r.body = .begin ∧
    ∀ r' ∈ after, r'.logTid = txnId → ¬r'.body.Ends

/-- The tables as they are meant to be built: transactions that began and did not end since, and all
tables as one file. -/
structure ByDesign (records : List LogRecord) (rm : RecoveryManager) : Prop where
  active : ∀ txnId, (rm.activeTransactionTable txnId).isSome ↔ Open records txnId
  dirty : ∀ pageNo, rm.dirtyPageTable ⟨0, pageNo⟩ =
    (records.filter fun r => r.body.place?.any fun place => place.pageNo.toInt = pageNo).map LogRecord.lsn
  otherFiles : ∀ fd pageNo, fd ≠ 0 → rm.dirtyPageTable ⟨fd, pageNo⟩ = []

/-- No record that starts at this offset or later crosses the end of a read. -/
def WithinReads : ℕ → List LogRecord → Prop
  | _, [] => True
  | offset, r :: records => offset % logBufferSize + r.serialize.length ≤ logBufferSize ∧
      WithinReads (offset + r.serialize.length) records

/-- What one record does to the tables. -/
def record (rm : RecoveryManager) (r : LogRecord) : RecoveryManager :=
  match r.body with
  | .begin => rm.beginTxn r.logTid r.lsn
  | .commit => rm.eraseTxn r.logTid
  | .abort => rm.eraseTxn r.logTid
  | .insert _ place => rm.pushRedo place.pageNo r.lsn
  | .delete _ place => rm.pushRedo place.pageNo r.lsn
  | .update _ _ place => rm.pushRedo place.pageNo r.lsn

/-! ### One record -/

theorem bytesAt_append {pre mid : Bytes} {place : ℤ} {k size : ℕ} (hplace : place = (pre.length + k : ℕ))
    (hsize : k + size ≤ mid.length) : bytesAt (pre ++ mid) place size = some (mid.drop k) := by
  have hdrop : (pre ++ mid).drop (pre.length + k) = mid.drop k := by
    rw [← List.drop_drop, List.drop_left' rfl]
  subst hplace
  rw [bytesAt, if_pos, Int.toNat_natCast, hdrop]
  rw [Int.toNat_natCast, List.length_append]
  omega

/-- Behind a place `k` bytes into the record that starts here. -/
theorem skipValue_append {pre mid rest value : Bytes} {place : ℤ} {k : ℕ}
    (hplace : place = (pre.length + k : ℕ)) (hmid : mid.drop k = LogBody.serializeValue value ++ rest)
    (hfits : pre.length + mid.length < 2 ^ 31) :
    skipValue (pre ++ mid) place = some ((pre.length + (k + (value.length + 4)) : ℕ) : ℤ) ∧
      mid.drop (k + (value.length + 4)) = rest := by
  have hlen : mid.length - k = value.length + 4 + rest.length := by
    rw [← List.length_drop, hmid, List.length_append, LogBody.length_serializeValue]
  have hword : readWord (mid.drop k) = .ofNat 32 value.length := by
    rw [hmid, LogBody.serializeValue, List.append_assoc, readWord_wordBytes_append]
  have hint : (BitVec.ofNat 32 value.length).toInt = value.length := by
    rw [BitVec.toInt_eq_toNat_of_lt] <;> rw [BitVec.toNat_ofNat] <;> omega
  constructor
  · rw [skipValue, wordAt, bytesAt_append hplace (by omega), Option.map_some, Option.map_some, hword, hint,
      int32_eq (by omega) (by omega), hplace]
    congr 1
    push_cast
    omega
  · rw [← List.drop_drop, hmid, List.drop_left' (LogBody.length_serializeValue value)]

theorem pageNoAt_append {pre mid rest : Bytes} {place : LogPlace} {k : ℕ}
    (hmid : mid.drop k = place.serialize ++ rest) :
    pageNoAt (pre ++ mid) (pre.length + k : ℕ) = some place.pageNo := by
  have hlen : mid.length - k = place.size + rest.length := by
    rw [← List.length_drop, hmid, List.length_append, place.length_serialize]
  have hsize : 8 ≤ place.size := Nat.le_add_right 8 _
  rw [pageNoAt, bytesAt_append rfl (by omega), Option.map_some, hmid, LogPlace.serialize, List.append_assoc,
    readWord_wordBytes_append]

theorem analyzeType_append {r : LogRecord} {pre mid rest : Bytes} (rm : RecoveryManager)
    (hmid : mid.drop offsetLogData = r.body.serialize ++ rest) (hfits : pre.length + mid.length < 2 ^ 31) :
    analyzeType (pre ++ mid) (pre.length + offsetLogData : ℕ) r.logTid r.lsn rm r.body.logType =
      some (rm.record r) := by
  unfold record
  cases hbody : r.body with
  | begin => rfl
  | commit => rfl
  | abort => rfl
  | insert value place =>
    rw [hbody, LogBody.serialize, List.append_assoc] at hmid
    obtain ⟨hskip, hrid⟩ := skipValue_append rfl hmid hfits
    simp only [LogBody.logType, analyzeType, hskip, pageNoAt_append hrid, Option.bind_eq_bind, Option.bind_some]
    rfl
  | delete value place =>
    rw [hbody, LogBody.serialize, List.append_assoc] at hmid
    obtain ⟨hskip, hrid⟩ := skipValue_append rfl hmid hfits
    simp only [LogBody.logType, analyzeType, hskip, pageNoAt_append hrid, Option.bind_eq_bind, Option.bind_some]
    rfl
  | update oldValue newValue place =>
    rw [hbody, LogBody.serialize, List.append_assoc, List.append_assoc] at hmid
    obtain ⟨hskip, hnew⟩ := skipValue_append rfl hmid hfits
    obtain ⟨hskip', hrid⟩ := skipValue_append rfl hnew hfits
    simp only [LogBody.logType, analyzeType, hskip, hskip', pageNoAt_append hrid, Option.bind_eq_bind,
      Option.bind_some]
    rfl

theorem analyzeRecord_append {r : LogRecord} (h : r.Written) (pre rest : Bytes) (rm : RecoveryManager)
    (hfits : pre.length + (r.serialize ++ rest).length < 2 ^ 31) :
    analyzeRecord (pre ++ (r.serialize ++ rest)) pre.length rm =
      some (rm.record r, (((pre ++ r.serialize).length : ℕ) : ℤ)) := by
  obtain ⟨htype, hlsn, htotLen, htid, _, hdata⟩ := r.header_fields rest
  have hheader : 24 ≤ (r.serialize ++ rest).length := by
    rw [LogRecord.serialize, List.append_assoc, List.length_append, r.length_serializeHeader]
    exact Nat.le_add_right 24 _
  have hword : ∀ k : ℕ, k + 4 ≤ 24 → wordAt (pre ++ (r.serialize ++ rest)) (pre.length + k) =
      some (readWord ((r.serialize ++ rest).drop k)) := by
    intro k hk
    rw [wordAt, bytesAt_append (by push_cast; rfl) (by omega), Option.map_some]
  have hdword : bytesAt (pre ++ (r.serialize ++ rest)) (pre.length + offsetLogTid) 8 =
      some ((r.serialize ++ rest).drop offsetLogTid) :=
    bytesAt_append (by push_cast; rfl) (Nat.le_trans (by decide) hheader)
  have hbody := analyzeType_append rm hdata hfits
  have hnext : int32 (pre.length + r.logTotLen.toNat) = ((pre ++ r.serialize).length : ℕ) := by
    rw [List.length_append] at hfits ⊢
    rw [h.length_serialize] at hfits ⊢
    rw [int32_eq (by omega) (by omega)]
    push_cast
    rfl
  push_cast at hbody
  simp only [analyzeRecord, hword offsetLogType (by decide), hword offsetLsn (by decide),
    hword offsetLogTotLen (by decide), hdword, htype, hlsn, htotLen, Option.map_some, htid,
    LogType.ofWord_toWord, Option.bind_eq_bind, Option.bind_some, hbody, hnext]
  rfl

/-! ### All records -/

theorem analyzeBuffer_append {records : List LogRecord} (h : ∀ r ∈ records, r.Written) (pre rest : Bytes)
    (rm : RecoveryManager) {fuel : ℕ} (hfuel : records.length ≤ fuel)
    (hfits : (pre ++ (records.flatMap LogRecord.serialize ++ rest)).length < 2 ^ 31) :
    analyzeBuffer (pre ++ (records.flatMap LogRecord.serialize ++ rest))
      (pre ++ records.flatMap LogRecord.serialize).length fuel pre.length rm = some (records.foldl record rm) := by
  induction records generalizing pre rm fuel with
  | nil =>
    have hend : ¬((pre.length : ℤ) < (pre ++ [].flatMap LogRecord.serialize).length) := by
      simp
    unfold analyzeBuffer
    rw [if_neg hend]
    rfl
  | cons r records ih =>
    cases fuel with
    | zero => exact absurd hfuel (Nat.not_succ_le_zero _)
    | succ fuel =>
      have hr := h r List.mem_cons_self
      have hpos := LogRecord.sized.pos r hr
      have hstart : (pre.length : ℤ) < (pre ++ (r :: records).flatMap LogRecord.serialize).length := by
        rw [List.flatMap_cons, List.length_append, List.length_append]
        omega
      have hbuffer : pre ++ ((r :: records).flatMap LogRecord.serialize ++ rest) =
          pre ++ (r.serialize ++ (records.flatMap LogRecord.serialize ++ rest)) := by
        rw [List.flatMap_cons, List.append_assoc]
      have hnext : pre ++ (r.serialize ++ (records.flatMap LogRecord.serialize ++ rest)) =
          (pre ++ r.serialize) ++ (records.flatMap LogRecord.serialize ++ rest) := by
        rw [List.append_assoc]
      have hread : pre ++ (r :: records).flatMap LogRecord.serialize =
          (pre ++ r.serialize) ++ records.flatMap LogRecord.serialize := by
        rw [List.flatMap_cons, List.append_assoc]
      rw [hbuffer] at hfits
      have hrecord := analyzeRecord_append hr pre (records.flatMap LogRecord.serialize ++ rest) rm
        (by rwa [List.length_append] at hfits)
      have hrest := ih (fun r hr => h r (List.mem_cons_of_mem _ hr)) (pre ++ r.serialize) (rm.record r)
        (Nat.le_of_succ_le_succ hfuel) (hnext ▸ hfits)
      unfold analyzeBuffer
      rw [if_pos hstart, hbuffer, hrecord]
      simp only [Option.bind_some]
      rw [hnext, hread, hrest, List.foldl_cons]

/-- The records that one read delivers, with room for so many bytes up to the next multiple of its size. -/
theorem WithinReads.split {records : List LogRecord} {offset room : ℕ} (h : WithinReads offset records)
    (hroom : room ≤ logBufferSize) (hend : (offset + room) % logBufferSize = 0) :
    ∃ now later, records = now ++ later ∧
      (now.flatMap LogRecord.serialize).length = min room (records.flatMap LogRecord.serialize).length ∧
      WithinReads (offset + (now.flatMap LogRecord.serialize).length) later := by
  have hsize : logBufferSize = 4194304 := rfl
  induction records generalizing offset room with
  | nil => exact ⟨[], [], rfl, by simp, trivial⟩
  | cons r records ih =>
    by_cases hzero : room = 0
    · exact ⟨[], r :: records, rfl, by simp [hzero], h⟩
    · obtain ⟨hwithin, hrest⟩ := h
      have hfits : r.serialize.length ≤ room := by
        rw [hsize] at hwithin hend
        omega
      have hsum : offset + r.serialize.length + (room - r.serialize.length) = offset + room := by omega
      have hroom' : room - r.serialize.length ≤ logBufferSize := by omega
      obtain ⟨now, later, heq, hlen, hlater⟩ := ih hrest hroom' (hsum ▸ hend)
      refine ⟨r :: now, later, by rw [heq, List.cons_append], ?_, ?_⟩
      · rw [List.flatMap_cons, List.flatMap_cons, List.length_append, List.length_append, hlen]
        omega
      · rw [List.flatMap_cons, List.length_append, ← Nat.add_assoc]
        exact hlater

theorem flatMap_serialize_eq_nil {records : List LogRecord} (h : ∀ r ∈ records, r.Written)
    (hnil : (records.flatMap LogRecord.serialize).length = 0) : records = [] := by
  cases records with
  | nil => rfl
  | cons r records =>
    have hpos := LogRecord.sized.pos r (h r List.mem_cons_self)
    rw [List.flatMap_cons, List.length_append] at hnil
    omega

theorem readLog_append {done rest : Bytes} (hfits : (done ++ rest).length < 2 ^ 31) :
    readLog (done ++ rest) logBufferSize done.length = some (rest.take (min logBufferSize rest.length)) := by
  have hsize : int32 (done ++ rest).length = (done ++ rest).length := int32_eq (by omega) (by omega)
  have hleft : ((done ++ rest).length - done.length : ℤ).toNat = rest.length := by
    rw [List.length_append]
    omega
  have hle : ¬((done ++ rest).length < (done.length : ℤ)) := by
    rw [List.length_append]
    omega
  simp only [readLog, hsize, hleft]
  rw [if_neg hle, List.drop_left' rfl]

theorem analyzeFrom_append {rest : List LogRecord} (h : ∀ r ∈ rest, r.Written) (done buffer : Bytes)
    (rm : RecoveryManager) {fuel : ℕ} (hfuel : rest.length < fuel)
    (hbuffer : buffer.length = logBufferSize)
    (hfits : (done ++ rest.flatMap LogRecord.serialize).length < 2 ^ 31)
    (hstart : rest = [] ∨ done.length % logBufferSize = 0) (hwithin : WithinReads done.length rest) :
    analyzeFrom (done ++ rest.flatMap LogRecord.serialize) fuel buffer done.length rm =
      some (rest.foldl record rm) := by
  have hsize : logBufferSize = 4194304 := rfl
  induction fuel generalizing rest done buffer rm with
  | zero => exact absurd hfuel (Nat.not_lt_zero _)
  | succ fuel ih =>
    have hread := readLog_append hfits
    unfold analyzeFrom
    by_cases hnil : rest = []
    · subst hnil
      rw [hread]
      rfl
    · have haligned := hstart.resolve_left hnil
      obtain ⟨now, later, hsplit, hlen, hlater⟩ :=
        hwithin.split (Nat.le_refl logBufferSize) (by rw [Nat.add_mod_right, haligned])
      have hbytes : rest.flatMap LogRecord.serialize =
          now.flatMap LogRecord.serialize ++ later.flatMap LogRecord.serialize := by
        rw [hsplit, List.flatMap_append]
      have htake : (rest.flatMap LogRecord.serialize).take
          (min logBufferSize (rest.flatMap LogRecord.serialize).length) = now.flatMap LogRecord.serialize := by
        rw [← hlen, hbytes, List.take_left' rfl]
      have hrestPos : 0 < (rest.flatMap LogRecord.serialize).length :=
        Nat.pos_of_ne_zero fun hzero => hnil (flatMap_serialize_eq_nil h hzero)
      have hnowPos : 0 < (now.flatMap LogRecord.serialize).length := by omega
      have hnow : ∀ r ∈ now, r.Written := fun r hr => h r (hsplit ▸ List.mem_append_left _ hr)
      have hlaterWritten : ∀ r ∈ later, r.Written := fun r hr => h r (hsplit ▸ List.mem_append_right _ hr)
      have hnowLen : 0 < now.length := by
        cases now with
        | nil => exact absurd hnowPos (Nat.lt_irrefl 0)
        | cons r now => exact Nat.succ_pos _
      have hrestLen : rest.length = now.length + later.length := by rw [hsplit, List.length_append]
      have hcount : now.length ≤ (now.flatMap LogRecord.serialize).length :=
        LogRecord.sized.length_le hnow
      have hfile : done ++ rest.flatMap LogRecord.serialize =
          (done ++ now.flatMap LogRecord.serialize) ++ later.flatMap LogRecord.serialize := by
        rw [hbytes, List.append_assoc]
      have hfull : (now.flatMap LogRecord.serialize ++
          buffer.drop (now.flatMap LogRecord.serialize).length).length = logBufferSize := by
        rw [List.length_append, List.length_drop]
        omega
      have hpiece := analyzeBuffer_append hnow [] (buffer.drop (now.flatMap LogRecord.serialize).length) rm
        hcount (by rw [List.nil_append]; omega)
      -- The read ended at a multiple of the buffer's size, or at the end of the file.
      have hnext : later = [] ∨ (done ++ now.flatMap LogRecord.serialize).length % logBufferSize = 0 := by
        by_cases hlast : later = []
        · exact .inl hlast
        · have hlaterPos : 0 < (later.flatMap LogRecord.serialize).length :=
            Nat.pos_of_ne_zero fun hzero => hlast (flatMap_serialize_eq_nil hlaterWritten hzero)
          rw [hbytes, List.length_append] at hlen
          rw [hsize] at haligned
          rw [List.length_append, hsize]
          omega
      rw [← List.length_append] at hlater
      have hlaterFuel : later.length < fuel := by omega
      have hrest := ih hlaterWritten (done ++ now.flatMap LogRecord.serialize) _ (now.foldl record rm)
        hlaterFuel hfull (hfile ▸ hfits) hnext hlater
      rw [hread, htake]
      split
      · rename_i heq
        exact absurd heq nofun
      · rename_i heq
        rw [Option.some.inj heq] at hnowPos
        exact absurd hnowPos (Nat.lt_irrefl 0)
      · rename_i bytes _ heq
        obtain rfl := Option.some.inj heq
        rw [List.nil_append, List.nil_append, List.length_nil, Int.ofNat_zero] at hpiece
        simp only [hpiece, Option.bind_some]
        rw [hfile, ← List.length_append, hrest, hsplit, List.foldl_append]

/-- The tables after the analysis of a log that no read cuts in a record. -/
theorem analyze_eq (stale : Vector UInt8 logBufferSize) {records : List LogRecord} (h : ∀ r ∈ records, r.Written)
    (hfits : (records.flatMap LogRecord.serialize).length < 2 ^ 31) (hwithin : WithinReads 0 records) :
    analyze stale (records.flatMap LogRecord.serialize) = some (records.foldl record clear) := by
  have hcount := LogRecord.sized.length_le h
  exact analyzeFrom_append h [] stale.toList clear (Nat.lt_succ_of_le hcount) (Vector.length_toList) hfits
    (.inr rfl) hwithin

theorem open_concat {records : List LogRecord} {r : LogRecord} {txnId : BitVec 64} :
    Open (records ++ [r]) txnId ↔ r.logTid = txnId ∧ r.body = .begin ∨
      Open records txnId ∧ ¬(r.logTid = txnId ∧ r.body.Ends) := by
  constructor
  · intro ⟨before, first, after, heq, htid, hbegin, hopen⟩
    rcases after.eq_nil_or_concat with rfl | ⟨after', last, rfl⟩
    · obtain ⟨_, hr⟩ := List.append_inj' heq rfl
      obtain rfl := List.singleton_inj.mp hr
      exact .inl ⟨htid, hbegin⟩
    · rw [List.concat_eq_append, ← List.cons_append, ← List.append_assoc] at heq
      rw [List.concat_eq_append] at hopen
      obtain ⟨hrecords, hr⟩ := List.append_inj' heq rfl
      obtain rfl := List.singleton_inj.mp hr
      have hlast := hopen r (List.mem_append_right _ List.mem_cons_self)
      exact .inr ⟨⟨before, first, after', hrecords, htid, hbegin,
        fun r' hr' => hopen r' (List.mem_append_left _ hr')⟩, fun ⟨heq, hends⟩ => hlast heq hends⟩
  · intro h
    rcases h with ⟨htid, hbegin⟩ | ⟨⟨before, first, after, rfl, htid, hbegin, hopen⟩, hends⟩
    · exact ⟨records, r, [], rfl, htid, hbegin, nofun⟩
    · refine ⟨before, first, after ++ [r], by rw [List.append_assoc, List.cons_append], htid, hbegin, ?_⟩
      intro r' hr' heq
      rcases List.mem_append.mp hr' with hr' | hr'
      · exact hopen r' hr' heq
      · obtain rfl := List.mem_singleton.mp hr'
        exact fun hend => hends ⟨heq, hend⟩

theorem activeTransactionTable_record (rm : RecoveryManager) (r : LogRecord) (txnId : BitVec 64) :
    ((rm.record r).activeTransactionTable txnId).isSome ↔ r.logTid = txnId ∧ r.body = .begin ∨
      (rm.activeTransactionTable txnId).isSome ∧ ¬(r.logTid = txnId ∧ r.body.Ends) := by
  unfold record
  by_cases htid : txnId = r.logTid
  · subst htid
    cases r.body <;> simp [beginTxn, eraseTxn, pushRedo, LogBody.Ends]
  · cases r.body <;> simp [beginTxn, eraseTxn, pushRedo, htid, Ne.symm htid]

theorem dirtyPageTable_pushRedo (rm : RecoveryManager) (pageNo lsn : BitVec 32) (id : PageId) :
    (rm.pushRedo pageNo lsn).dirtyPageTable id =
      rm.dirtyPageTable id ++ if id = ⟨0, pageNo.toInt⟩ then [lsn] else [] := by
  by_cases hid : id = ⟨0, pageNo.toInt⟩
  · simp [pushRedo, hid]
  · simp [pushRedo, hid]

theorem dirtyPageTable_record (rm : RecoveryManager) (r : LogRecord) (id : PageId) :
    (rm.record r).dirtyPageTable id = rm.dirtyPageTable id ++
      if r.body.place?.any fun place => id = ⟨0, place.pageNo.toInt⟩ then [r.lsn] else [] := by
  unfold record
  cases r.body <;> simp [beginTxn, eraseTxn, dirtyPageTable_pushRedo, LogBody.place?]

/-- One more record at the end of the log. -/
theorem ByDesign.record {records : List LogRecord} {rm : RecoveryManager} (h : ByDesign records rm)
    (r : LogRecord) : ByDesign (records ++ [r]) (rm.record r) := by
  obtain ⟨hactive, hdirty, hother⟩ := h
  refine ⟨fun txnId => ?_, fun pageNo => ?_, fun fd pageNo hfd => ?_⟩
  · rw [activeTransactionTable_record, open_concat, hactive]
  · rw [dirtyPageTable_record, hdirty, List.filter_append, List.map_append]
    cases hplace : r.body.place? with
    | none => simp [hplace]
    | some place =>
      by_cases hpage : place.pageNo.toInt = pageNo
      · simp [hplace, hpage]
      · simp [hplace, hpage, Ne.symm hpage]
  · rw [dirtyPageTable_record, hother fd pageNo hfd]
    cases r.body.place? with
    | none => rfl
    | some place => simp [hfd]

theorem foldl_byDesign (records : List LogRecord) : ByDesign records (records.foldl record clear) := by
  induction records using List.reverseRecOn with
  | nil =>
    have hclosed : ∀ txnId, ¬Open [] txnId := fun _ ⟨before, r, after, heq, _⟩ =>
      List.append_ne_nil_of_right_ne_nil before (List.cons_ne_nil r after) heq.symm
    exact ⟨fun txnId => iff_of_false nofun (hclosed txnId), fun _ => rfl, fun _ _ _ => rfl⟩
  | append_singleton records r ih =>
    rw [List.foldl_append]
    exact ih.record r

/-- The analysis ends, and with the tables it is designed to build. -/
theorem analyze_byDesign (stale : Vector UInt8 logBufferSize) (records : List LogRecord)
    (h : ∀ r ∈ records, r.Written) (hfits : (records.flatMap LogRecord.serialize).length < 2 ^ 31)
    (hwithin : WithinReads 0 records) :
    ∃ rm, analyze stale (records.flatMap LogRecord.serialize) = some rm ∧ ByDesign records rm :=
  ⟨_, analyze_eq stale h hfits hwithin, foldl_byDesign records⟩

/-- A transaction that inserts into the pages 1 of two tables. -/
def twoTables : List LogRecord :=
  [(LogRecord.construct 7 .begin).withLsn 0, (LogRecord.construct 7 (.insert [5] ⟨1, 0, [97]⟩)).withLsn 1,
    (LogRecord.construct 7 (.insert [6] ⟨1, 0, [98]⟩)).withLsn 2]

theorem twoTables_written : ∀ r ∈ twoTables, r.Written := by
  intro r hr
  rcases List.mem_cons.mp hr with rfl | hr
  · exact ⟨rfl, by decide⟩
  · rcases List.mem_cons.mp hr with rfl | hr
    · exact ⟨rfl, by decide⟩
    · obtain rfl := List.mem_singleton.mp hr
      exact ⟨rfl, by decide⟩

theorem twoTables_withinReads : WithinReads 0 twoTables := ⟨by decide, by decide, by decide, trivial⟩

theorem analyze_byDesign_twoTables :
    ∃ rm, analyze (.replicate _ 0) (twoTables.flatMap LogRecord.serialize) = some rm ∧ ByDesign twoTables rm :=
  analyze_byDesign _ twoTables twoTables_written (by decide) twoTables_withinReads

/-- The changes to the two tables are listed under one page. -/
theorem not_exact_twoTables :
    ¬∃ rm, analyze (.replicate _ 0) (twoTables.flatMap LogRecord.serialize) = some rm ∧ Exact twoTables rm := by
  intro ⟨rm, hrun, hexact⟩
  rw [analyze_eq _ twoTables_written (by decide) twoTables_withinReads] at hrun
  obtain rfl := Option.some.inj hrun
  obtain ⟨fd, hdirty⟩ := hexact.dirty
  have hfirst := hdirty [97] 1
  by_cases hfd : fd [97] = 0
  · rw [hfd] at hfirst
    exact absurd hfirst (by decide)
  · rw [(foldl_byDesign twoTables).otherFiles _ 1 hfd] at hfirst
    exact absurd hfirst (by decide)

end RecoveryManager
end Rmdb
