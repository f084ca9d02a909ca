import Rmdb.Common.Defs
import Rmdb.Lib.Frames

/-! Log records and their bytes: a header of 24 bytes, the images of the record with their sizes,
the place of the record and the name of its table. -/
namespace Rmdb

inductive LogType where
  | update
  | insert
  | delete
  | begin
  | commit
  | abort
deriving DecidableEq, Repr

def LogType.toWord : LogType → BitVec 32
  | .update => 0
  | .insert => 1
  | .delete => 2
  | .begin => 3
  | .commit => 4
  | .abort => 5

/-- The type behind a word; other words are no types. -/
def LogType.ofWord (w : BitVec 32) : Option LogType :=
  [LogType.update, .insert, .delete, .begin, .commit, .abort].find? (·.toWord = w)

theorem LogType.ofWord_toWord (type : LogType) : LogType.ofWord type.toWord = some type := by
  cases type <;> decide

def offsetLogType : ℕ := 0
def offsetLsn : ℕ := 4
def offsetLogTotLen : ℕ := 8
def offsetLogTid : ℕ := 12
def offsetPrevLsn : ℕ := 20
def offsetLogData : ℕ := 24
def logHeaderSize : ℕ := offsetLogData

def invalidLsn : BitVec 32 := -1

/-- Where a logged change was made. -/
structure LogPlace where
  pageNo : BitVec 32
  slotNo : BitVec 32
  tableName : Bytes
deriving DecidableEq, Repr

inductive LogBody where
  | begin
  | commit
  | abort
  | insert (insertValue : Bytes) (place : LogPlace)
  | delete (deleteValue : Bytes) (place : LogPlace)
  | update (oldValue newValue : Bytes) (place : LogPlace)
deriving DecidableEq, Repr

structure LogRecord where
  lsn : BitVec 32
  logTotLen : BitVec 32
  logTid : BitVec 64
  prevLsn : BitVec 32
  body : LogBody
deriving DecidableEq, Repr

namespace LogPlace

/-- A `Rid`, and the name with its length as a `size_t`. -/
def size (place : LogPlace) : ℕ := 8 + (8 + place.tableName.length)

def serialize (place : LogPlace) : Bytes :=
  wordBytes place.pageNo ++ (wordBytes place.slotNo ++
    (dwordBytes (.ofNat 64 place.tableName.length) ++ place.tableName))

def deserialize (src : Bytes) : LogPlace where
  pageNo := readWord src
  slotNo := readWord (src.drop 4)
  tableName := (src.drop 16).take (readDword (src.drop 8)).toNat

end LogPlace

namespace LogBody

def logType : LogBody → LogType
  | begin => .begin
  | commit => .commit
  | abort => .abort
  | insert _ _ => .insert
  | delete _ _ => .delete
  | update _ _ _ => .update

/-- What a constructor adds to the length of the header. -/
def size : LogBody → ℕ
  | begin => 0
  | commit => 0
  | abort => 0
  | insert value place => 4 + value.length + place.size
  | delete value place => 4 + value.length + place.size
  | update oldValue newValue place => 4 * 2 + (oldValue.length + newValue.length) + place.size

/-- The size and the data of a record image. -/
def serializeValue (value : Bytes) : Bytes := wordBytes (.ofNat 32 value.length) ++ value

def serialize : LogBody → Bytes
  | begin => []
  | commit => []
  | abort => []
  | insert value place => serializeValue value ++ place.serialize
  | delete value place => serializeValue value ++ place.serialize
  | update oldValue newValue place => serializeValue oldValue ++ (serializeValue newValue ++ place.serialize)

/-- `RmRecord::Deserialize`. -/
def deserializeValue (src : Bytes) : Bytes := (src.drop 4).take (readWord src).toNat

/-- What follows the header, read by the class that stands for the type. -/
def deserialize (type : LogType) (src : Bytes) : LogBody :=
  match type with
  | .begin => begin
  | .commit => commit
  | .abort => abort
  | .insert =>
    let value := deserializeValue src
    insert value (LogPlace.deserialize (src.drop (value.length + 4)))
  | .delete =>
    let value := deserializeValue src
    delete value (LogPlace.deserialize (src.drop (value.length + 4)))
  | .update =>
    let oldValue := deserializeValue src
    let newValue := deserializeValue (src.drop (oldValue.length + 4))
    update oldValue newValue
      (LogPlace.deserialize (src.drop (oldValue.length + 4 + (newValue.length + 4))))

end LogBody

namespace LogRecord

/-- A record as it is constructed; its number comes with its place in the log. -/
def construct (txnId : BitVec 64) (body : LogBody) : LogRecord where
  lsn := invalidLsn
  logTotLen := .ofNat 32 (logHeaderSize + body.size)
  logTid := txnId
  prevLsn := invalidLsn
  body := body

def withLsn (r : LogRecord) (lsn : BitVec 32) : LogRecord := { r with lsn }

def serializeHeader (r : LogRecord) : Bytes :=
  wordBytes r.body.logType.toWord ++ (wordBytes r.lsn ++ (wordBytes r.logTotLen ++
    (dwordBytes r.logTid ++ wordBytes r.prevLsn)))

def serialize (r : LogRecord) : Bytes := r.serializeHeader ++ r.body.serialize

/-- The length field of the record at the front of some bytes. -/
def totLenAt (src : Bytes) : ℕ := (readWord (src.drop offsetLogTotLen)).toNat

/-- Make a record of the type that the header names and let it read the bytes. -/
def deserialize (src : Bytes) : Option LogRecord :=
  (LogType.ofWord (readWord (src.drop offsetLogType))).map fun type =>
    { lsn := readWord (src.drop offsetLsn)
      logTotLen := readWord (src.drop offsetLogTotLen)
      logTid := readDword (src.drop offsetLogTid)
      prevLsn := readWord (src.drop offsetPrevLsn)
      body := LogBody.deserialize type (src.drop offsetLogData) }

/-- Cut a log by the length fields of its records and read each piece. -/
def readLog (log : Bytes) : Option (List LogRecord) :=
  (Frames.cut totLenAt log.length log).bind fun pieces => pieces.mapM deserialize

/-- A record that was constructed, perhaps with other numbers since. Its length fits the type of the
offsets within it. -/
structure Written (r : LogRecord) : Prop where
  logTotLen : r.logTotLen = (construct r.logTid r.body).logTotLen
  fits : logHeaderSize + r.body.size < 2 ^ 31

end LogRecord

/-! ### Reading what was written -/

theorem LogPlace.length_serialize (place : LogPlace) : place.serialize.length = place.size := by
  simp only [serialize, size, List.length_append, length_wordBytes, length_dwordBytes]
  omega

theorem LogPlace.deserialize_serialize (place : LogPlace) (rest : Bytes) (h : place.tableName.length < 2 ^ 64) :
    LogPlace.deserialize (place.serialize ++ rest) = place := by
  have hpage : place.serialize ++ rest = wordBytes place.pageNo ++ (wordBytes place.slotNo ++
      (dwordBytes (.ofNat 64 place.tableName.length) ++ (place.tableName ++ rest))) := by
    simp only [serialize, List.append_assoc]
  have hslot : (place.serialize ++ rest).drop 4 = wordBytes place.slotNo ++
      (dwordBytes (.ofNat 64 place.tableName.length) ++ (place.tableName ++ rest)) := by
    rw [hpage, List.drop_left' (length_wordBytes _)]
  have hlen : (place.serialize ++ rest).drop 8 =
      dwordBytes (.ofNat 64 place.tableName.length) ++ (place.tableName ++ rest) := by
    rw [show 8 = 4 + 4 from rfl, ← List.drop_drop, hslot, List.drop_left' (length_wordBytes _)]
  have hname : (place.serialize ++ rest).drop 16 = place.tableName ++ rest := by
    rw [show 16 = 8 + 8 from rfl, ← List.drop_drop, hlen, List.drop_left' (length_dwordBytes _)]
  have hnat : (BitVec.ofNat 64 place.tableName.length).toNat = place.tableName.length := by
    rw [BitVec.toNat_ofNat, Nat.mod_eq_of_lt h]
  unfold deserialize
  rw [hlen, hname, hslot, hpage, readDword_dwordBytes_append, hnat, List.take_left' rfl,
    readWord_wordBytes_append, readWord_wordBytes_append]

namespace LogBody

theorem length_serializeValue (value : Bytes) : (serializeValue value).length = value.length + 4 := by
  rw [serializeValue, List.length_append, length_wordBytes]
  omega

theorem length_serialize (body : LogBody) : body.serialize.length = body.size := by
  cases body with
  | begin => rfl
  | commit => rfl
  | abort => rfl
  | insert value place =>
    rw [serialize, List.length_append, length_serializeValue, place.length_serialize, size]
    omega
  | delete value place =>
    rw [serialize, List.length_append, length_serializeValue, place.length_serialize, size]
    omega
  | update oldValue newValue place =>
    rw [serialize, List.length_append, List.length_append, length_serializeValue, length_serializeValue,
      place.length_serialize, size]
    omega

theorem deserializeValue_serializeValue (value rest : Bytes) (h : value.length < 2 ^ 32) :
    deserializeValue (serializeValue value ++ rest) = value := by
  have hlen : (BitVec.ofNat 32 value.length).toNat = value.length := by
    rw [BitVec.toNat_ofNat, Nat.mod_eq_of_lt h]
  unfold deserializeValue serializeValue
  rw [List.append_assoc, readWord_wordBytes_append, List.drop_left' (length_wordBytes _), hlen,
    List.take_left' rfl]

theorem drop_serializeValue (value rest : Bytes) : (serializeValue value ++ rest).drop (value.length + 4) = rest :=
  List.drop_left' (length_serializeValue value)

theorem deserialize_serialize (body : LogBody) (rest : Bytes) (h : body.size < 2 ^ 31) :
    deserialize body.logType (body.serialize ++ rest) = body := by
  cases body with
  | begin => rfl
  | commit => rfl
  | abort => rfl
  | insert value place =>
    simp only [size, LogPlace.size] at h
    have hplace := place.deserialize_serialize rest (by omega)
    have hvalue := deserializeValue_serializeValue value (place.serialize ++ rest) (by omega)
    simp only [logType, serialize, deserialize, List.append_assoc, hvalue, drop_serializeValue, hplace]
  | delete value place =>
    simp only [size, LogPlace.size] at h
    have hplace := place.deserialize_serialize rest (by omega)
    have hvalue := deserializeValue_serializeValue value (place.serialize ++ rest) (by omega)
    simp only [logType, serialize, deserialize, List.append_assoc, hvalue, drop_serializeValue, hplace]
  | update oldValue newValue place =>
    simp only [size, LogPlace.size] at h
    have hplace := place.deserialize_serialize rest (by omega)
    have hnew := deserializeValue_serializeValue newValue (place.serialize ++ rest) (by omega)
    have hold := deserializeValue_serializeValue oldValue (serializeValue newValue ++ (place.serialize ++ rest))
      (by omega)
    have hdropNew := drop_serializeValue newValue (place.serialize ++ rest)
    have hdropOld := drop_serializeValue oldValue (serializeValue newValue ++ (place.serialize ++ rest))
    simp only [logType, serialize, deserialize, List.append_assoc, ← List.drop_drop, hold, hdropOld, hnew,
      hdropNew, hplace]

end LogBody

namespace LogRecord

variable {r : LogRecord}

theorem length_serializeHeader (r : LogRecord) : r.serializeHeader.length = logHeaderSize := rfl

theorem Written.withLsn (h : r.Written) (lsn : BitVec 32) : (r.withLsn lsn).Written := ⟨h.logTotLen, h.fits⟩

/-- The record fills exactly the length that it carries. -/
theorem Written.length_serialize (h : r.Written) : r.serialize.length = r.logTotLen.toNat := by
  have hfits := h.fits
  have hbody := r.body.length_serialize
  have hlen : (construct r.logTid r.body).logTotLen.toNat = logHeaderSize + r.body.size := by
    rw [construct, BitVec.toNat_ofNat, Nat.mod_eq_of_lt (by omega)]
  rw [serialize, List.length_append, r.length_serializeHeader, hbody, h.logTotLen, hlen]

/-- The fields of a header, each behind those before it. -/
theorem header_fields (r : LogRecord) (rest : Bytes) :
    readWord ((r.serialize ++ rest).drop offsetLogType) = r.body.logType.toWord ∧
      readWord ((r.serialize ++ rest).drop offsetLsn) = r.lsn ∧
      readWord ((r.serialize ++ rest).drop offsetLogTotLen) = r.logTotLen ∧
      readDword ((r.serialize ++ rest).drop offsetLogTid) = r.logTid ∧
      readWord ((r.serialize ++ rest).drop offsetPrevLsn) = r.prevLsn ∧
      (r.serialize ++ rest).drop offsetLogData = r.body.serialize ++ rest := by
  obtain ⟨data, hdata⟩ : ∃ data, data = r.body.serialize ++ rest := ⟨_, rfl⟩
  have hstream : r.serialize ++ rest = wordBytes r.body.logType.toWord ++ (wordBytes r.lsn ++
      (wordBytes r.logTotLen ++ (dwordBytes r.logTid ++ (wordBytes r.prevLsn ++ data)))) := by
    simp only [serialize, serializeHeader, List.append_assoc, hdata]
  have hlsn : (r.serialize ++ rest).drop offsetLsn = wordBytes r.lsn ++ (wordBytes r.logTotLen ++
      (dwordBytes r.logTid ++ (wordBytes r.prevLsn ++ data))) := by
    rw [hstream, offsetLsn, List.drop_left' (length_wordBytes _)]
  have htotLen : (r.serialize ++ rest).drop offsetLogTotLen =
      wordBytes r.logTotLen ++ (dwordBytes r.logTid ++ (wordBytes r.prevLsn ++ data)) := by
    rw [show offsetLogTotLen = offsetLsn + 4 from rfl, ← List.drop_drop, hlsn,
      List.drop_left' (length_wordBytes _)]
  have htid : (r.serialize ++ rest).drop offsetLogTid =
      dwordBytes r.logTid ++ (wordBytes r.prevLsn ++ data) := by
    rw [show offsetLogTid = offsetLogTotLen + 4 from rfl, ← List.drop_drop, htotLen,
      List.drop_left' (length_wordBytes _)]
  have hprevLsn : (r.serialize ++ rest).drop offsetPrevLsn = wordBytes r.prevLsn ++ data := by
    rw [show offsetPrevLsn = offsetLogTid + 8 from rfl, ← List.drop_drop, htid,
      List.drop_left' (length_dwordBytes _)]
  have hlogData : (r.serialize ++ rest).drop offsetLogData = data := by
    rw [show offsetLogData = offsetPrevLsn + 4 from rfl, ← List.drop_drop, hprevLsn,
      List.drop_left' (length_wordBytes _)]
  rw [hlsn, htotLen, htid, hprevLsn, hlogData, hstream, offsetLogType, List.drop_zero]
  exact ⟨readWord_wordBytes_append _ _, readWord_wordBytes_append _ _, readWord_wordBytes_append _ _,
    readDword_dwordBytes_append _ _, readWord_wordBytes_append _ _, hdata⟩

theorem deserialize_append (h : r.Written) (rest : Bytes) : deserialize (r.serialize ++ rest) = some r := by
  obtain ⟨htype, hlsn, htotLen, htid, hprevLsn, hdata⟩ := r.header_fields rest
  have hfits := h.fits
  have hbody := r.body.deserialize_serialize rest (by omega)
  unfold deserialize
  rw [htype, LogType.ofWord_toWord, hlsn, htotLen, htid, hprevLsn, hdata, Option.map_some, hbody]

theorem sized : Frames.Sized totLenAt serialize Written where
  pos r h := by
    have hfits := h.fits
    rw [serialize, List.length_append, r.length_serializeHeader]
    exact Nat.lt_add_right _ (by decide)
  size_append r h rest := by
    obtain ⟨_, _, htotLen, _⟩ := r.header_fields rest
    rw [totLenAt, htotLen, h.length_serialize]

/-- Every record is read back whole, fills its own length, and a log of any records is cut into them. -/
theorem codec_roundtrip (records : List LogRecord) (h : ∀ r ∈ records, r.Written) :
    (∀ r ∈ records, deserialize r.serialize = some r ∧ r.serialize.length = r.logTotLen.toNat) ∧
      readLog (records.flatMap serialize) = some records := by
  have hread : ∀ r ∈ records, deserialize r.serialize = some r := by
    intro r hr
    have := deserialize_append (h r hr) []
    rwa [List.append_nil] at this
  refine ⟨fun r hr => ⟨hread r hr, (h r hr).length_serialize⟩, ?_⟩
  have hcut := sized.cut_flatMap h (Nat.le_refl (records.flatMap serialize).length)
  unfold readLog
  rw [hcut, Option.bind_some]
  clear h hcut
  induction records with
  | nil => rfl
  | cons r records ih =>
    have hrest := ih fun r hr => hread r (List.mem_cons_of_mem _ hr)
    rw [List.map_cons, List.mapM_cons, hread r List.mem_cons_self, hrest]
    rfl

/-- An INSERT and a COMMIT record. -/
theorem codec_roundtrip_two :
    let records := [construct 7 (.insert [1, 2, 3] ⟨1, 0, [116]⟩), construct 7 .commit]
    (∀ r ∈ records, deserialize r.serialize = some r ∧ r.serialize.length = r.logTotLen.toNat) ∧
      readLog (records.flatMap serialize) = some records :=
  codec_roundtrip _ fun r hr => by
    rcases List.mem_cons.mp hr with rfl | hr
    · exact ⟨rfl, by decide⟩
    · obtain rfl := List.mem_singleton.mp hr
      exact ⟨rfl, by decide⟩

end LogRecord
end Rmdb
