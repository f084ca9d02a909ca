import Rmdb.Recovery.LogScan

/-! The lookup of a log record by its number: what `read_log_record` finds wherever the record lies in the file. -/
namespace Rmdb

open StateTransition Relation

/-- A log of constructed records, none of which has the number of another. -/
structure WellFormedLog (log : List LogRecord) : Prop where
  written : ∀ r ∈ log, r.Written
  distinct : log.Pairwise fun r r' => r.lsn ≠ r'.lsn

namespace RecoveryManager

/-- The lookup of every record returns that record. -/
def FindsAll (stale : Vector UInt8 logBufferSize) (log : List LogRecord) : Prop :=
  ∀ r ∈ log, (readLoop r.lsn).Yields stale (log.flatMap LogRecord.serialize) () (some (some r))

/-! ### A record in the buffer -/

variable {buffer pre mid rest : Bytes} {place : ℤ} {k size : ℕ} {value : Bytes} {type : LogType} {r r' : LogRecord}

theorem length_record (r : LogRecord) : r.serialize.length = 24 + r.body.size := by
  rw [LogRecord.serialize, List.length_append, r.length_serializeHeader, r.body.length_serialize]
  rfl

theorem header_le (r : LogRecord) : 24 ≤ r.serialize.length := by
  rw [length_record]
  exact Nat.le_add_right _ _

theorem length_of_bytesAt {bytes : Bytes} (h : bytesAt buffer place size = some bytes) :
    0 ≤ place ∧ place + size ≤ buffer.length ∧ size ≤ bytes.length := by
  unfold bytesAt at h
  split at h
  · rename_i hin
    obtain rfl := Option.some.inj h
    rw [List.length_drop]
    omega
  · exact absurd h nofun

theorem length_of_takeAt (h : (bytesAt buffer place size).map (·.take size) = some value) :
    place + size ≤ buffer.length ∧ value.length = size := by
  obtain ⟨bytes, hbytes, rfl⟩ := Option.map_eq_some_iff.mp h
  obtain ⟨-, hend, hlen⟩ := length_of_bytesAt hbytes
  exact ⟨hend, by rw [List.length_take, Nat.min_eq_left hlen]⟩

theorem placeAt_end {found : LogPlace} (h : placeAt buffer place = some found) : place + found.size ≤ buffer.length := by
  simp only [placeAt, Option.bind_eq_bind, Option.bind_eq_some_iff] at h
  obtain ⟨rid, -, nameSize, -, name, hname, heq⟩ := h
  obtain rfl := Option.some.inj heq
  obtain ⟨hend, hlen⟩ := length_of_takeAt hname
  show place + ((8 + (8 + name.length) : ℕ) : ℤ) ≤ _
  omega

/-- What a body takes lies in the buffer, if it takes any bytes. -/
theorem bodyAt_end {body : LogBody} (h : bodyAt buffer place type = some body) :
    body.size = 0 ∨ place + body.size ≤ buffer.length := by
  cases type with
  | begin | commit | abort =>
    obtain rfl := Option.some.inj h
    exact .inl rfl
  | insert | delete =>
    simp only [bodyAt, Option.bind_eq_bind, Option.bind_eq_some_iff] at h
    obtain ⟨value, -, found, hfound, heq⟩ := h
    obtain rfl := Option.some.inj heq
    have hend := placeAt_end hfound
    right
    rw [LogBody.size]
    push_cast
    omega
  | update =>
    simp only [bodyAt, Option.bind_eq_bind, Option.bind_eq_some_iff] at h
    obtain ⟨oldValue, -, newValue, -, found, hfound, heq⟩ := h
    obtain rfl := Option.some.inj heq
    have hend := placeAt_end hfound
    right
    rw [LogBody.size]
    push_cast
    omega

/-- All that a record takes lies in the buffer. -/
theorem deserializeAt_end (h : deserializeAt buffer place type = some r) :
    place + (24 + r.body.size) ≤ buffer.length := by
  simp only [deserializeAt, Option.bind_eq_bind, Option.bind_eq_some_iff] at h
  obtain ⟨lsn, -, logTotLen, -, logTid, -, prevLsn, hprev, body, hbody, heq⟩ := h
  obtain rfl := Option.some.inj heq
  obtain ⟨bytes, hbytes, -⟩ := Option.map_eq_some_iff.mp hprev
  obtain ⟨-, hheader, -⟩ := length_of_bytesAt hbytes
  have hend := bodyAt_end hbody
  have hdata : (offsetLogData : ℤ) = 24 := rfl
  have hoffset : (offsetPrevLsn : ℤ) = 20 := rfl
  rw [hdata] at hend
  rw [hoffset] at hheader
  dsimp only
  omega

theorem valueAt_append (pre : Bytes) (hplace : place = (pre.length + k : ℕ))
    (hmid : mid.drop k = LogBody.serializeValue value ++ rest)
    (hfits : value.length < 2 ^ 31) : valueAt (pre ++ mid) place = some value ∧ mid.drop (k + (value.length + 4)) = rest := by
  have hlen : mid.length - k = value.length + 4 + rest.length := by
    rw [← List.length_drop, hmid, List.length_append, LogBody.length_serializeValue]
  have hword : readWord (mid.drop k) = .ofNat 32 value.length := by
    rw [hmid, LogBody.serializeValue, List.append_assoc, readWord_wordBytes_append]
  have hnat : (BitVec.ofNat 32 value.length).toNat = value.length := by
    rw [BitVec.toNat_ofNat]
    omega
  have hint : ¬(BitVec.ofNat 32 value.length).toInt < 0 := by
    rw [BitVec.toInt_eq_toNat_of_lt (by omega)]
    omega
  have hdata : mid.drop (k + 4) = value ++ rest := by
    rw [← List.drop_drop, hmid, LogBody.serializeValue, List.append_assoc, List.drop_left' (length_wordBytes _)]
  constructor
  · simp only [valueAt, wordAt, bytesAt_append hplace (show k + 4 ≤ mid.length by omega), Option.map_some, hword,
      Option.bind_eq_bind, Option.bind_some]
    rw [if_neg hint, hnat, bytesAt_append (k := k + 4) (by omega) (by omega), Option.map_some, hdata, List.take_left' rfl]
  · rw [← List.drop_drop, hmid, List.drop_left' (LogBody.length_serializeValue value)]

theorem placeAt_append (pre : Bytes) {found : LogPlace} (hmid : mid.drop k = found.serialize ++ rest)
    (hfits : found.tableName.length < 2 ^ 31) : placeAt (pre ++ mid) (pre.length + k : ℕ) = some found := by
  have hlen : mid.length - k = 16 + found.tableName.length + rest.length := by
    rw [← List.length_drop, hmid, List.length_append, found.length_serialize, LogPlace.size]
    omega
  have hslot : mid.drop (k + 4) = wordBytes found.slotNo ++
      (dwordBytes (.ofNat 64 found.tableName.length) ++ (found.tableName ++ rest)) := by
    rw [← List.drop_drop, hmid]
    simp only [LogPlace.serialize, List.append_assoc]
    exact List.drop_left' (length_wordBytes _)
  have hsize : mid.drop (k + 8) = dwordBytes (.ofNat 64 found.tableName.length) ++ (found.tableName ++ rest) := by
    rw [show k + 8 = k + 4 + 4 from rfl, ← List.drop_drop, hslot, List.drop_left' (length_wordBytes _)]
  have hname : mid.drop (k + 16) = found.tableName ++ rest := by
    rw [show k + 16 = k + 8 + 8 from rfl, ← List.drop_drop, hsize, List.drop_left' (length_dwordBytes _)]
  have hnat : (BitVec.ofNat 64 found.tableName.length).toNat = found.tableName.length := by
    rw [BitVec.toNat_ofNat]
    omega
  have hpage : readWord (mid.drop k) = found.pageNo := by
    rw [hmid]
    simp only [LogPlace.serialize, List.append_assoc]
    exact readWord_wordBytes_append _ _
  have hslotNo : readWord ((mid.drop k).drop 4) = found.slotNo := by
    rw [List.drop_drop, hslot, readWord_wordBytes_append]
  simp only [placeAt, Option.bind_eq_bind]
  rw [bytesAt_append rfl (by omega), bytesAt_append (k := k + 8) (by omega) (by omega), Option.map_some, hsize,
    readDword_dwordBytes_append, Option.bind_some, Option.bind_some, hnat,
    bytesAt_append (k := k + 16) (by omega) (by omega), Option.map_some, Option.bind_some, hname, List.take_left' rfl,
    hpage, hslotNo]
  rfl

theorem bodyAt_append (pre : Bytes) {body : LogBody} (hmid : mid.drop k = body.serialize ++ rest) (hfits : body.size < 2 ^ 31) :
    bodyAt (pre ++ mid) (pre.length + k : ℕ) body.logType = some body := by
  cases body with
  | begin | commit | abort => rfl
  | insert value found | delete value found =>
    simp only [LogBody.size, LogPlace.size] at hfits
    simp only [LogBody.serialize, List.append_assoc] at hmid
    obtain ⟨hvalue, hrest⟩ := valueAt_append pre rfl hmid (by omega)
    have hfound := placeAt_append pre hrest (by omega)
    have hnext : ((pre.length + k : ℕ) : ℤ) + (value.length + 4) = ((pre.length + (k + (value.length + 4)) : ℕ) : ℤ) := by
      omega
    simp only [LogBody.logType, bodyAt, Option.bind_eq_bind, hvalue, hnext, hfound, Option.bind_some]
    rfl
  | update oldValue newValue found =>
    simp only [LogBody.size, LogPlace.size] at hfits
    simp only [LogBody.serialize, List.append_assoc] at hmid
    obtain ⟨hold, hrest⟩ := valueAt_append pre rfl hmid (by omega)
    obtain ⟨hnew, hrest'⟩ := valueAt_append pre rfl hrest (by omega)
    have hfound := placeAt_append pre hrest' (by omega)
    have hnext : ((pre.length + k : ℕ) : ℤ) + (oldValue.length + 4) =
        ((pre.length + (k + (oldValue.length + 4)) : ℕ) : ℤ) := by omega
    have hnext' : ((pre.length + k : ℕ) : ℤ) + (oldValue.length + 4 + (newValue.length + 4)) =
        ((pre.length + (k + (oldValue.length + 4) + (newValue.length + 4)) : ℕ) : ℤ) := by omega
    simp only [LogBody.logType, bodyAt, Option.bind_eq_bind, hold, hnext, hnew, hnext', hfound, Option.bind_some]
    rfl

/-- A record that lies in the buffer is read back. -/
theorem deserializeAt_append (pre rest : Bytes) (hr : r.Written) :
    deserializeAt (pre ++ (r.serialize ++ rest)) pre.length r.body.logType = some r := by
  obtain ⟨-, hlsn, hlen, htid, hprev⟩ := header_at pre rest r
  obtain ⟨-, -, -, -, -, hdata⟩ := r.header_fields rest
  have hfits := hr.fits
  have hbody := bodyAt_append pre hdata (by omega)
  have hplace : ((pre.length + offsetLogData : ℕ) : ℤ) = (pre.length : ℤ) + offsetLogData := Int.natCast_add _ _
  rw [hplace] at hbody
  simp only [deserializeAt, Option.bind_eq_bind, hlsn, hlen, htid, hprev, hbody, Option.bind_some]
  rfl

theorem createLogRecord_append (pre rest : Bytes) (hr : r.Written) :
    createLogRecord (pre ++ (r.serialize ++ rest)) pre.length = some (some r) := by
  obtain ⟨htype, -⟩ := header_at pre rest r
  simp only [createLogRecord, Option.bind_eq_bind, htype, Option.bind_some, LogType.ofWord_toWord,
    deserializeAt_append pre rest hr]
  rfl

/-- A record is not read back where its end is behind the end of the buffer. -/
theorem createLogRecord_cut (pre : Bytes) (hk : k < r.serialize.length) :
    createLogRecord (pre ++ r.serialize.take k) pre.length ≠ some (some r) := by
  intro h
  obtain ⟨typeWord, -, hrest⟩ := Option.bind_eq_some_iff.mp h
  split at hrest
  · exact absurd (Option.some.inj hrest) nofun
  · obtain ⟨r', hr', heq⟩ := Option.map_eq_some_iff.mp hrest
    obtain rfl := Option.some.inj heq
    have hend := deserializeAt_end hr'
    have hlen := length_record r'
    rw [List.length_append, List.length_take] at hend
    omega

/-! ### On the way to a record -/

section scanning
variable {lsn : BitVec 32} {bytesRead : ℕ} {now : List LogRecord}

theorem toInt_place {n : ℕ} (hn : n < 2 ^ 31) : (BitVec.ofNat 32 n).toInt = n := by
  have hnat : (BitVec.ofNat 32 n).toNat = n := by
    rw [BitVec.toNat_ofNat]
    omega
  rw [BitVec.toInt_eq_toNat_of_lt (by omega), hnat]

theorem place_lt {n : ℕ} (hn : n < bytesRead) (hsmall : bytesRead ≤ logBufferSize) :
    (BitVec.ofNat 32 n).toInt < bytesRead := by
  have hsize : logBufferSize = 4194304 := rfl
  rw [toInt_place (by omega)]
  omega

/-- What the loop does at a place where a header lies in the bytes read. -/
theorem turn_at (lsn : BitVec 32) (pre : Bytes) {mid : Bytes} (hmid : 24 ≤ mid.length) (hend : pre.length + 24 ≤ bytesRead)
    (hsmall : bytesRead ≤ logBufferSize) :
    (readLoop lsn).turn (pre ++ mid) bytesRead (.ofNat 32 pre.length) () =
      if readWord (mid.drop offsetLsn) = lsn then .done (createLogRecord (pre ++ mid) pre.length)
      else if readWord (mid.drop offsetLogTotLen) = 0 ∨
          bytesRead < (BitVec.ofNat 32 pre.length + readWord (mid.drop offsetLogTotLen)).toNat then .leave
      else .next (.ofNat 32 pre.length + readWord (mid.drop offsetLogTotLen)) () := by
  have hsize : logBufferSize = 4194304 := rfl
  have hplace := toInt_place (show pre.length < 2 ^ 31 by omega)
  have hword : ∀ k : ℕ, k + 4 ≤ 24 → wordAt (pre ++ mid) (pre.length + k) = some (readWord (mid.drop k)) := by
    intro k hk
    rw [wordAt, bytesAt_append (Int.natCast_add _ _).symm (Nat.le_trans hk hmid), Option.map_some]
  have hlsn := hword offsetLsn (by decide)
  have htotLen := hword offsetLogTotLen (by decide)
  rw [← hplace] at hlsn htotLen ⊢
  have hheader : (BitVec.ofNat 32 pre.length).toInt + logHeaderSize ≤ bytesRead := by
    rw [hplace]
    show (pre.length : ℤ) + 24 ≤ bytesRead
    omega
  exact turn_readLoop lsn hheader hlsn htotLen

/-- The loop goes over a record with another number. -/
theorem step_over (logFile pre rest : Bytes) (offset reads : ℕ) (hr : r.Written) (hne : r.lsn ≠ lsn)
    (hend : pre.length + r.serialize.length ≤ bytesRead) (hsmall : bytesRead ≤ logBufferSize) :
    (readLoop lsn).step logFile
        (.within (pre ++ (r.serialize ++ rest)) bytesRead offset reads (.ofNat 32 pre.length) ()) =
      some (.within (pre ++ (r.serialize ++ rest)) bytesRead offset reads
        (.ofNat 32 (pre.length + r.serialize.length)) ()) := by
  have hsize : logBufferSize = 4194304 := rfl
  have hlen := hr.length_serialize
  have hlong := header_le r
  obtain ⟨-, hlsn, htotLen, -⟩ := r.header_fields rest
  have hmid : 24 ≤ (r.serialize ++ rest).length := by
    rw [List.length_append]
    omega
  have hturn := turn_at lsn pre hmid (show pre.length + 24 ≤ bytesRead by omega) hsmall
  have hnext : BitVec.ofNat 32 pre.length + r.logTotLen = .ofNat 32 (pre.length + r.serialize.length) := by
    rw [hlen, BitVec.ofNat_add, BitVec.ofNat_toNat, BitVec.setWidth_eq]
  have hnextNat : (BitVec.ofNat 32 pre.length + r.logTotLen).toNat = pre.length + r.serialize.length := by
    rw [hnext, BitVec.toNat_ofNat]
    omega
  have hpos : r.logTotLen ≠ 0 := by
    intro heq
    rw [heq] at hlen
    have hzero : r.serialize.length = 0 := hlen
    omega
  have hgo : ¬(r.logTotLen = 0 ∨ bytesRead < (BitVec.ofNat 32 pre.length + r.logTotLen).toNat) := by
    rw [hnextNat]
    exact not_or.mpr ⟨hpos, Nat.not_lt.mpr hend⟩
  rw [hlsn, htotLen, if_neg hne, if_neg hgo, hnext] at hturn
  rw [LogLoop.step, if_pos (place_lt (by omega) hsmall), hturn]

theorem reaches_over (logFile pre rest : Bytes) (offset reads : ℕ) (h : ∀ r ∈ now, r.Written ∧ r.lsn ≠ lsn)
    (hend : pre.length + (now.flatMap LogRecord.serialize).length ≤ bytesRead) (hsmall : bytesRead ≤ logBufferSize) :
    Reaches ((readLoop lsn).step logFile)
      (.within (pre ++ (now.flatMap LogRecord.serialize ++ rest)) bytesRead offset reads (.ofNat 32 pre.length) ())
      (.within (pre ++ (now.flatMap LogRecord.serialize ++ rest)) bytesRead offset reads
        (.ofNat 32 (pre.length + (now.flatMap LogRecord.serialize).length)) ()) := by
  induction now generalizing pre with
  | nil => exact .refl
  | cons r now ih =>
    obtain ⟨hr, hne⟩ := h r List.mem_cons_self
    rw [List.flatMap_cons, List.length_append] at hend
    have hstep := step_over logFile pre (now.flatMap LogRecord.serialize ++ rest) offset reads hr hne (by omega) hsmall
    have hrest := ih (pre ++ r.serialize) (fun r' hr' => h r' (List.mem_cons_of_mem _ hr'))
      (by rw [List.length_append]; omega)
    rw [List.append_assoc, List.length_append, Nat.add_assoc] at hrest
    rw [List.flatMap_cons, List.append_assoc, List.length_append]
    exact .head hstep hrest

/-- Where the loop is when it comes to the first byte of some bytes of the file: so many reads of whole buffers were
before, and `pre` is in front of it in the buffer. -/
def atPlace (pre piece stale : Bytes) (reads : ℕ) : Scan Unit (Option (Option LogRecord)) :=
  .within (pre ++ (piece ++ stale)) (pre ++ piece).length (reads * logBufferSize) (reads + 1) (.ofNat 32 pre.length) ()

/-- A read. There are not so many of them that the loop gives up. -/
theorem read_step {done rest : Bytes} (buffer : Bytes) {reads : ℕ} (lsn : BitVec 32) (hfits : (done ++ rest).length < 2 ^ 31)
    (hdone : done.length = reads * logBufferSize) (hrest : rest ≠ []) :
    (readLoop lsn).step (done ++ rest) (.reading buffer done.length reads ()) =
      some (.within (rest.take logBufferSize ++ buffer.drop (rest.take logBufferSize).length)
        (rest.take logBufferSize).length (reads * logBufferSize) (reads + 1) 0 ()) := by
  have hsize : logBufferSize = 4194304 := rfl
  have hread := readLog_append hfits
  rw [← List.take_eq_take_min] at hread
  have hgoes : ¬(readLoop lsn).maxReads.any (· ≤ reads) = true := by
    rw [List.length_append, hdone, hsize] at hfits
    simp only [readLoop, Option.any_some, decide_eq_true_eq]
    omega
  obtain ⟨piece, hpiece⟩ : ∃ piece, piece = rest.take logBufferSize := ⟨_, rfl⟩
  rw [← hpiece] at hread ⊢
  rw [LogLoop.step, if_neg hgoes, hread, ← hdone]
  cases piece with
  | nil =>
    rw [eq_comm, List.take_eq_nil_iff] at hpiece
    exact absurd (hpiece.resolve_left (by decide)) hrest
  | cons b piece => rfl

/-- One read, and the loop goes over the records at the front of it. -/
theorem reaches_piece {done rest : Bytes} (buffer : Bytes) {reads : ℕ} (h : ∀ r ∈ now, r.Written ∧ r.lsn ≠ lsn)
    (hfits : (done ++ (now.flatMap LogRecord.serialize ++ rest)).length < 2 ^ 31)
    (hdone : done.length = reads * logBufferSize) (hne : now.flatMap LogRecord.serialize ++ rest ≠ [])
    (hnow : (now.flatMap LogRecord.serialize).length ≤ logBufferSize) :
    ∃ stale, stale = buffer.drop (now.flatMap LogRecord.serialize ++
        rest.take (logBufferSize - (now.flatMap LogRecord.serialize).length)).length ∧
      Reaches ((readLoop lsn).step (done ++ (now.flatMap LogRecord.serialize ++ rest)))
        (.reading buffer done.length reads ()) (atPlace (now.flatMap LogRecord.serialize)
          (rest.take (logBufferSize - (now.flatMap LogRecord.serialize).length)) stale reads) := by
  have hread := read_step buffer lsn hfits hdone hne
  have htake : (now.flatMap LogRecord.serialize ++ rest).take logBufferSize = now.flatMap LogRecord.serialize ++
      rest.take (logBufferSize - (now.flatMap LogRecord.serialize).length) := by
    rw [List.take_append, List.take_of_length_le hnow]
  have hshort := List.length_take_le logBufferSize (now.flatMap LogRecord.serialize ++ rest)
  rw [htake] at hread hshort
  obtain ⟨piece, hpiece⟩ : ∃ piece,
      piece = rest.take (logBufferSize - (now.flatMap LogRecord.serialize).length) := ⟨_, rfl⟩
  rw [← hpiece] at hread hshort ⊢
  obtain ⟨stale, hstale⟩ : ∃ stale, stale = buffer.drop (now.flatMap LogRecord.serialize ++ piece).length := ⟨_, rfl⟩
  have hend : ([] : Bytes).length + (now.flatMap LogRecord.serialize).length ≤
      (now.flatMap LogRecord.serialize ++ piece).length := by
    rw [List.length_nil, Nat.zero_add, List.length_append]
    exact Nat.le_add_right _ _
  have hover := reaches_over (done ++ (now.flatMap LogRecord.serialize ++ rest)) [] (piece ++ stale)
    (reads * logBufferSize) (reads + 1) h hend hshort
  rw [List.nil_append, List.length_nil, Nat.zero_add] at hover
  rw [← hstale, List.append_assoc] at hread
  exact ⟨stale, hstale, .head hread hover⟩

/-- Records that fill a read are left behind. -/
theorem reaches_next {done rest buffer : Bytes} {reads : ℕ} (h : ∀ r ∈ now, r.Written ∧ r.lsn ≠ lsn)
    (hbuffer : buffer.length = logBufferSize)
    (hfits : (done ++ (now.flatMap LogRecord.serialize ++ rest)).length < 2 ^ 31)
    (hdone : done.length = reads * logBufferSize) (hnow : (now.flatMap LogRecord.serialize).length = logBufferSize) :
    Reaches ((readLoop lsn).step (done ++ (now.flatMap LogRecord.serialize ++ rest)))
      (.reading buffer done.length reads ())
      (.reading (now.flatMap LogRecord.serialize) (done ++ now.flatMap LogRecord.serialize).length (reads + 1) ()) := by
  have hsize : logBufferSize = 4194304 := rfl
  have hne : now.flatMap LogRecord.serialize ++ rest ≠ [] := by
    apply List.append_ne_nil_of_left_ne_nil
    rw [← List.length_pos_iff, hnow]
    decide
  obtain ⟨stale, hstale, hpiece⟩ := reaches_piece buffer h hfits hdone hne (Nat.le_of_eq hnow)
  rw [hnow, Nat.sub_self, List.take_zero, List.append_nil, hnow, List.drop_of_length_le (Nat.le_of_eq hbuffer)] at hstale
  rw [hnow, Nat.sub_self, List.take_zero, hstale] at hpiece
  have hend : ¬(BitVec.ofNat 32 (now.flatMap LogRecord.serialize).length).toInt <
      ((now.flatMap LogRecord.serialize).length : ℤ) := by
    rw [toInt_place (by omega)]
    exact lt_irrefl _
  apply hpiece.tail
  show LogLoop.step _ _ _ = _
  rw [atPlace, List.append_nil, List.append_nil, LogLoop.step, if_neg hend, List.length_append, hdone]

/-- The loop comes to the bytes behind records with other numbers. -/
theorem arrives {before : List LogRecord} (h : ∀ r ∈ before, r.Written ∧ r.lsn ≠ lsn) (done tail buffer : Bytes)
    (reads : ℕ) (hbuffer : buffer.length = logBufferSize)
    (hfits : (done ++ (before.flatMap LogRecord.serialize ++ tail)).length < 2 ^ 31) (htail : tail ≠ [])
    (hdone : done.length = reads * logBufferSize) (hwithin : WithinReads done.length before) :
    ∃ pre stale reads', done.length + (before.flatMap LogRecord.serialize).length = reads' * logBufferSize + pre.length ∧
      pre.length < logBufferSize ∧
      (pre ++ (tail.take (logBufferSize - pre.length) ++ stale)).length = logBufferSize ∧
      Reaches ((readLoop lsn).step (done ++ (before.flatMap LogRecord.serialize ++ tail)))
        (.reading buffer done.length reads ()) (atPlace pre (tail.take (logBufferSize - pre.length)) stale reads') := by
  have hsize : logBufferSize = 4194304 := rfl
  induction hn : before.length using Nat.strong_induction_on generalizing before done buffer reads with
  | _ n ih =>
    obtain ⟨now, later, rfl, hlen, hlater⟩ :=
      hwithin.split (Nat.le_refl logBufferSize) (by rw [Nat.add_mod_right, hdone, Nat.mul_mod_left])
    have hnow : ∀ r ∈ now, r.Written ∧ r.lsn ≠ lsn := fun r hr => h r (List.mem_append_left _ hr)
    have hlaterWritten : ∀ r ∈ later, r.Written ∧ r.lsn ≠ lsn := fun r hr => h r (List.mem_append_right _ hr)
    rw [List.flatMap_append, List.length_append] at hlen
    rw [List.flatMap_append, List.append_assoc] at hfits ⊢
    by_cases hfull : (now.flatMap LogRecord.serialize).length < logBufferSize
    · obtain rfl := flatMap_serialize_eq_nil (fun r hr => (hlaterWritten r hr).1) (by omega)
      rw [List.flatMap_nil, List.nil_append] at hfits ⊢
      obtain ⟨stale, hstale, hpiece⟩ := reaches_piece buffer hnow hfits hdone
        (List.append_ne_nil_of_right_ne_nil _ htail) (Nat.le_of_lt hfull)
      refine ⟨_, stale, reads, ?_, hfull, ?_, hpiece⟩
      · rw [List.append_nil, hdone]
      · rw [← List.append_assoc, List.length_append, hstale, List.length_drop, hbuffer, List.length_append,
          List.length_take]
        omega
    · have hexact : (now.flatMap LogRecord.serialize).length = logBufferSize := by omega
      have hnext := reaches_next hnow hbuffer hfits hdone hexact
      have hfewer : later.length < n := by
        have hnonempty : now ≠ [] := by
          rintro rfl
          exact absurd hexact (by decide)
        have hpos := List.length_pos_iff.mpr hnonempty
        rw [← hn, List.length_append]
        omega
      have hfile : done ++ (now.flatMap LogRecord.serialize ++ (later.flatMap LogRecord.serialize ++ tail)) =
          (done ++ now.flatMap LogRecord.serialize) ++ (later.flatMap LogRecord.serialize ++ tail) := by
        rw [List.append_assoc]
      have hdone' : (done ++ now.flatMap LogRecord.serialize).length = (reads + 1) * logBufferSize := by
        rw [List.length_append, hdone, hexact, Nat.succ_mul]
      rw [← List.length_append] at hlater
      obtain ⟨pre, stale, reads', hplace, hinside, hlength, hreaches⟩ := ih later.length hfewer hlaterWritten
        (done ++ now.flatMap LogRecord.serialize) (now.flatMap LogRecord.serialize) (reads + 1) hexact (hfile ▸ hfits)
        hdone' hlater rfl
      rw [← hfile] at hreaches
      refine ⟨pre, stale, reads', ?_, hinside, hlength, hnext.trans hreaches⟩
      rw [List.length_append, ← Nat.add_assoc, ← List.length_append, hplace]

end scanning

/-! ### What is found -/

variable {stale : Vector UInt8 logBufferSize} {before later : List LogRecord}

theorem withinReads_append {offset : ℕ} : WithinReads offset (before ++ later) ↔
    WithinReads offset before ∧ WithinReads (offset + (before.flatMap LogRecord.serialize).length) later := by
  induction before generalizing offset with
  | nil =>
    rw [List.nil_append, List.flatMap_nil, List.length_nil, Nat.add_zero]
    exact (and_iff_right trivial).symm
  | cons r before ih =>
    rw [List.cons_append, WithinReads, WithinReads, ih, List.flatMap_cons, List.length_append, Nat.add_assoc, and_assoc]

theorem arrives_start {lsn : BitVec 32} {tail : Bytes} (stale : Vector UInt8 logBufferSize)
    (h : ∀ r ∈ before, r.Written ∧ r.lsn ≠ lsn)
    (hfits : (before.flatMap LogRecord.serialize ++ tail).length < 2 ^ 31) (htail : tail ≠ [])
    (hwithin : WithinReads 0 before) :
    ∃ pre rest reads, (before.flatMap LogRecord.serialize).length = reads * logBufferSize + pre.length ∧
      pre.length < logBufferSize ∧ (pre ++ (tail.take (logBufferSize - pre.length) ++ rest)).length = logBufferSize ∧
      Reaches ((readLoop lsn).step (before.flatMap LogRecord.serialize ++ tail)) (LogLoop.start stale ())
        (atPlace pre (tail.take (logBufferSize - pre.length)) rest reads) := by
  obtain ⟨pre, rest, reads, hplace, hinside, hlength, hreaches⟩ :=
    arrives h [] tail stale.toList 0 Vector.length_toList hfits htail rfl hwithin
  rw [List.length_nil, Nat.zero_add] at hplace
  exact ⟨pre, rest, reads, hplace, hinside, hlength, hreaches⟩

theorem yields_record (stale : Vector UInt8 logBufferSize) (hr : r.Written)
    (h : ∀ r' ∈ before, r'.Written ∧ r'.lsn ≠ r.lsn)
    (hfits : ((before ++ r :: later).flatMap LogRecord.serialize).length < 2 ^ 31)
    (hwithin : WithinReads 0 (before ++ r :: later)) :
    (readLoop r.lsn).Yields stale ((before ++ r :: later).flatMap LogRecord.serialize) () (some (some r)) := by
  have hsize : logBufferSize = 4194304 := rfl
  have hlong := header_le r
  obtain ⟨hbefore, hrest⟩ := withinReads_append.mp hwithin
  have hroom := hrest.1
  rw [Nat.zero_add] at hroom
  rw [List.flatMap_append, List.flatMap_cons] at hfits ⊢
  have htail : r.serialize ++ later.flatMap LogRecord.serialize ≠ [] := by
    apply List.append_ne_nil_of_left_ne_nil
    rw [← List.length_pos_iff]
    omega
  obtain ⟨pre, rest, reads, hplace, hinside, -, hreaches⟩ := arrives_start stale h hfits htail hbefore
  have hfull : r.serialize.length ≤ logBufferSize - pre.length := by
    rw [hplace, Nat.mul_add_mod_of_lt hinside] at hroom
    omega
  rw [List.take_append, List.take_of_length_le hfull] at hreaches
  obtain ⟨piece, hpiece⟩ : ∃ piece, piece = (later.flatMap LogRecord.serialize).take
    (logBufferSize - pre.length - r.serialize.length) := ⟨_, rfl⟩
  have hshort : (pre ++ (r.serialize ++ piece)).length ≤ logBufferSize := by
    rw [hpiece, List.length_append, List.length_append, List.length_take]
    omega
  rw [← hpiece] at hreaches
  apply hreaches.tail
  obtain ⟨-, hlsn, -⟩ := r.header_fields (piece ++ rest)
  have hmid : 24 ≤ (r.serialize ++ (piece ++ rest)).length := by
    rw [List.length_append]
    omega
  have hend : pre.length + 24 ≤ (pre ++ (r.serialize ++ piece)).length := by
    rw [List.length_append, List.length_append]
    omega
  have hturn := turn_at r.lsn pre hmid hend hshort
  rw [hlsn, if_pos rfl, createLogRecord_append pre (piece ++ rest) hr] at hturn
  show LogLoop.step _ _ _ = _
  rw [atPlace, List.append_assoc, LogLoop.step, if_pos (place_lt (by omega) hshort), hturn]

/-- Every record is found in a log of which no record crosses the end of a read. -/
theorem findsAll_of_withinReads {log : List LogRecord} (stale : Vector UInt8 logBufferSize) (h : WellFormedLog log)
    (hfits : (log.flatMap LogRecord.serialize).length < 2 ^ 31) (hwithin : WithinReads 0 log) : FindsAll stale log := by
  intro r hr
  obtain ⟨before, later, rfl⟩ := List.append_of_mem hr
  have hdistinct := (List.pairwise_append.mp h.distinct).2.2
  have hbefore : ∀ r' ∈ before, r'.Written ∧ r'.lsn ≠ r.lsn := fun r' hr' =>
    ⟨h.written r' (List.mem_append_left _ hr'), hdistinct r' hr' r List.mem_cons_self⟩
  exact yields_record stale (h.written r hr) hbefore hfits hwithin

end RecoveryManager
end Rmdb
