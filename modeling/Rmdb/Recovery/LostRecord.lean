import Rmdb.Recovery.ReadLogRecord
import Mathlib.Data.Finset.Card
import Mathlib.Order.Interval.Finset.Nat

/-! Log records that cross the end of a read: the lookup by number does not find them. -/
namespace Rmdb

open StateTransition Relation

namespace RecoveryManager

variable {buffer : Bytes} {r : LogRecord} {before : List LogRecord}

section behind
variable {logFile : Bytes} {lsn : BitVec 32} {start bytesRead offset reads : ℕ} {place : BitVec 32}

/-- The loop reads behind a place of the file and has returned no record. -/
def Behind (logFile : Bytes) (start : ℕ) : Scan Unit (Option (Option LogRecord)) → Prop
  | .reading _ offset _ _ => start < offset
  | .within buffer bytesRead offset _ place _ => start < offset ∧ place.toNat ≤ bytesRead ∧ bytesRead ≤ logBufferSize ∧
      ∃ bytes rest, buffer = bytes ++ rest ∧ bytes.length = bytesRead ∧ bytes <+: logFile.drop offset
  | .ended result => ∀ r, result ≠ some (some r)

theorem turn_short (hcut : bytesRead < place.toInt + logHeaderSize) :
    (readLoop lsn).turn buffer bytesRead place () = .leave := by
  simp only [readLoop]
  rw [if_pos hcut]

theorem turn_behind
    (hfar : ∀ k, start < k → k + 24 ≤ logFile.length → readWord (logFile.drop (k + offsetLsn)) ≠ lsn)
    (h : Behind logFile start (.within buffer bytesRead offset reads place ())) :
    (readLoop lsn).turn buffer bytesRead place () = .leave ∨
      ∃ next, next.toNat ≤ bytesRead ∧ (readLoop lsn).turn buffer bytesRead place () = .next next () := by
  have hsize : logBufferSize = 4194304 := rfl
  obtain ⟨hoffset, hplace, hsmall, bytes, rest, rfl, rfl, later, hbytes⟩ := h
  obtain ⟨k, hk⟩ : ∃ k, k = place.toNat := ⟨_, rfl⟩
  have hint : place.toInt = k := by
    rw [BitVec.toInt_eq_toNat_of_lt (by omega), hk]
  rw [← hk] at hplace
  by_cases hheader : k + 24 ≤ bytes.length
  · have hpre : (bytes.take k).length = k := List.length_take_of_le hplace
    have hmid : 24 ≤ (bytes.drop k ++ rest).length := by
      rw [List.length_append, List.length_drop]
      omega
    have hturn := turn_at lsn (bytes.take k) hmid (by rwa [hpre]) hsmall
    have hfile : logFile.drop (offset + k + offsetLsn) = bytes.drop (k + offsetLsn) ++ later := by
      rw [Nat.add_assoc, ← List.drop_drop, ← hbytes, List.drop_append_of_le_length]
      show k + 4 ≤ bytes.length
      omega
    have hlong : 4 ≤ (bytes.drop (k + offsetLsn)).length := by
      rw [List.length_drop]
      show 4 ≤ bytes.length - (k + 4)
      omega
    have hlast : offset + k + 24 ≤ logFile.length := by
      have hlength := congrArg List.length hbytes
      rw [List.length_append, List.length_drop] at hlength
      omega
    have hother := hfar (offset + k) (by omega) hlast
    rw [hfile, readWord_append later hlong] at hother
    have hword : readWord ((bytes.drop k ++ rest).drop offsetLsn) = readWord (bytes.drop (k + offsetLsn)) := by
      rw [List.drop_append_of_le_length, List.drop_drop, readWord_append rest hlong]
      rw [List.length_drop]
      show 4 ≤ bytes.length - k
      omega
    rw [hword, if_neg hother, hpre, ← List.append_assoc, List.take_append_drop, hk, BitVec.ofNat_toNat,
      BitVec.setWidth_eq] at hturn
    rw [hturn]
    split
    · exact .inl rfl
    · rename_i hgo
      exact .inr ⟨_, Nat.not_lt.mp (not_or.mp hgo).2, rfl⟩
  · left
    apply turn_short
    rw [hint]
    show (bytes.length : ℤ) < (k : ℤ) + 24
    omega

theorem readLog_bytes {bytes : Bytes} {size : ℕ} (h : readLog logFile size offset = some bytes) :
    bytes.length ≤ size ∧ bytes <+: logFile.drop offset := by
  unfold readLog at h
  dsimp only at h
  split at h
  · exact absurd h nofun
  · obtain rfl := Option.some.inj h
    constructor
    · rw [List.length_take]
      omega
    · exact List.take_prefix _ _

theorem Behind.step {c c' : Scan Unit (Option (Option LogRecord))}
    (hfar : ∀ k, start < k → k + 24 ≤ logFile.length → readWord (logFile.drop (k + offsetLsn)) ≠ lsn)
    (h : Behind logFile start c) (hstep : (readLoop lsn).step logFile c = some c') : Behind logFile start c' := by
  cases c with
  | ended result => cases hstep
  | reading buffer offset reads s =>
    simp only [LogLoop.step] at hstep
    split at hstep
    · obtain rfl := Option.some.inj hstep
      intro r hends
      cases hends
    · split at hstep
      · obtain rfl := Option.some.inj hstep
        intro r hends
        cases hends
      · obtain rfl := Option.some.inj hstep
        intro r hends
        cases hends
      · rename_i bytes _ hread
        obtain ⟨hsmall, hbytes⟩ := readLog_bytes hread
        obtain rfl := Option.some.inj hstep
        exact ⟨h, Nat.zero_le _, hsmall, bytes, _, rfl, rfl, hbytes⟩
  | within buffer bytesRead offset reads place s =>
    have hnext : start < offset + bytesRead := Nat.lt_add_right _ h.1
    simp only [LogLoop.step] at hstep
    split at hstep
    · rcases turn_behind hfar h with hturn | ⟨next, hle, hturn⟩
      · rw [hturn] at hstep
        obtain rfl := Option.some.inj hstep
        exact hnext
      · rw [hturn] at hstep
        obtain rfl := Option.some.inj hstep
        exact ⟨h.1, hle, h.2.2⟩
    · obtain rfl := Option.some.inj hstep
      exact hnext

/-- Behind the last place that carries a number, no record is returned for it. -/
theorem Behind.not_reaches {c : Scan Unit (Option (Option LogRecord))}
    (hfar : ∀ k, start < k → k + 24 ≤ logFile.length → readWord (logFile.drop (k + offsetLsn)) ≠ lsn)
    (h : Behind logFile start c) : ¬Reaches ((readLoop lsn).step logFile) c (.ended (some (some r))) := by
  intro hreaches
  have hrun : ∀ c', Reaches ((readLoop lsn).step logFile) c c' → Behind logFile start c' := by
    intro c' hreaches'
    induction hreaches' with
    | refl => exact h
    | tail _ hstep ih => exact ih.step hfar hstep
  exact hrun _ hreaches r rfl

/-- A loop that has come to a place returns what it returns from there. -/
theorem reaches_ended {σ ρ : Type} {l : LogLoop σ ρ} {a c : Scan σ ρ} {result : ρ} (hc : Reaches (l.step logFile) a c)
    (h : Reaches (l.step logFile) a (.ended result)) : Reaches (l.step logFile) c (.ended result) := by
  rcases reaches_total hc h with h | h
  · exact h
  · rcases ReflTransGen.cases_head h with rfl | ⟨d, hd, -⟩
    · exact .refl
    · exact absurd hd nofun

theorem ended_unique {σ ρ : Type} {l : LogLoop σ ρ} {a : Scan σ ρ} {result result' : ρ}
    (h : Reaches (l.step logFile) a (.ended result)) (h' : Reaches (l.step logFile) a (.ended result')) : result = result' := by
  rcases ReflTransGen.cases_head (reaches_ended h h') with heq | ⟨d, hd, -⟩
  · exact Scan.ended.inj heq
  · exact absurd hd nofun

/-- A record that crosses the end of a read is not found, if nothing behind it looks like it. -/
theorem not_yields_crossing (stale : Vector UInt8 logBufferSize) (h : ∀ r' ∈ before, r'.Written ∧ r'.lsn ≠ r.lsn)
    (hfits : (before.flatMap LogRecord.serialize ++ r.serialize).length < 2 ^ 31) (hwithin : WithinReads 0 before)
    (hcross : logBufferSize < (before.flatMap LogRecord.serialize).length % logBufferSize + r.serialize.length)
    (hfar : ∀ k, (before.flatMap LogRecord.serialize).length < k →
      k + 24 ≤ (before.flatMap LogRecord.serialize ++ r.serialize).length →
        readWord ((before.flatMap LogRecord.serialize ++ r.serialize).drop (k + offsetLsn)) ≠ r.lsn) :
    ¬(readLoop r.lsn).Yields stale (before.flatMap LogRecord.serialize ++ r.serialize) () (some (some r)) := by
  have hsize : logBufferSize = 4194304 := rfl
  have hlong := header_le r
  have htail : r.serialize ≠ [] := by
    rw [← List.length_pos_iff]
    omega
  obtain ⟨pre, rest, reads, hplace, hinside, hlength, hreaches⟩ := arrives_start stale h hfits htail hwithin
  rw [hplace, Nat.mul_add_mod_of_lt hinside] at hcross
  obtain ⟨k, hk⟩ : ∃ k, k = logBufferSize - pre.length := ⟨_, rfl⟩
  have htake : (r.serialize.take k).length = k := List.length_take_of_le (by omega)
  have hread : (pre ++ r.serialize.take k).length = logBufferSize := by
    rw [List.length_append, htake]
    omega
  have hrest : rest = [] := by
    rw [← hk, ← List.append_assoc, List.length_append, hread] at hlength
    exact List.eq_nil_of_length_eq_zero (by omega)
  rw [← hk, hrest] at hreaches
  intro hyields
  have hends := reaches_ended hreaches hyields
  rw [atPlace, List.append_nil, hread] at hends
  have hgo : (BitVec.ofNat 32 pre.length).toInt < (logBufferSize : ℤ) := place_lt hinside (Nat.le_refl _)
  by_cases hheader : 24 ≤ k
  · have hmid : 24 ≤ (r.serialize.take k).length := by omega
    have hturn := turn_at r.lsn pre hmid (show pre.length + 24 ≤ logBufferSize by omega) (Nat.le_refl _)
    have hlsn : readWord ((r.serialize.take k).drop offsetLsn) = r.lsn := by
      obtain ⟨-, hlsn, -⟩ := r.header_fields []
      have hfour : 4 ≤ ((r.serialize.take k).drop offsetLsn).length := by
        rw [List.length_drop, htake]
        show 4 ≤ k - 4
        omega
      have hle : offsetLsn ≤ (r.serialize.take k).length := Nat.le_trans (by decide) hmid
      have hsplit : r.serialize.drop offsetLsn = (r.serialize.take k).drop offsetLsn ++ r.serialize.drop k := by
        rw [← List.drop_append_of_le_length hle, List.take_append_drop]
      rw [← hlsn, List.append_nil, hsplit, readWord_append _ hfour]
    rw [hlsn, if_pos rfl] at hturn
    have hstep : (readLoop r.lsn).step (before.flatMap LogRecord.serialize ++ r.serialize)
        (.within (pre ++ r.serialize.take k) logBufferSize (reads * logBufferSize) (reads + 1) (.ofNat 32 pre.length) ()) =
          some (.ended (createLogRecord (pre ++ r.serialize.take k) pre.length)) := by
      rw [LogLoop.step, if_pos hgo, hturn]
    exact createLogRecord_cut pre (by omega) (ended_unique (.single hstep) hends)
  · have hcut : ((logBufferSize : ℕ) : ℤ) < (BitVec.ofNat 32 pre.length).toInt + logHeaderSize := by
      rw [toInt_place (by omega)]
      show (logBufferSize : ℤ) < (pre.length : ℤ) + 24
      omega
    have hstep : (readLoop r.lsn).step (before.flatMap LogRecord.serialize ++ r.serialize)
        (.within (pre ++ r.serialize.take k) logBufferSize (reads * logBufferSize) (reads + 1) (.ofNat 32 pre.length) ()) =
          some (.reading (pre ++ r.serialize.take k) (reads * logBufferSize + logBufferSize) (reads + 1) ()) := by
      rw [LogLoop.step, if_pos hgo, turn_short hcut]
    have hbehind : Behind (before.flatMap LogRecord.serialize ++ r.serialize) (before.flatMap LogRecord.serialize).length
        (.reading (pre ++ r.serialize.take k) (reads * logBufferSize + logBufferSize) (reads + 1) ()) := by
      show (before.flatMap LogRecord.serialize).length < _
      omega
    exact hbehind.not_reaches hfar (reaches_ended (.single hstep) hends)

end behind

/-! ### A record for every length -/

theorem exists_byte_notMem (bytes : Bytes) (h : bytes.length < 120) :
    ∃ b, 8 ≤ b ∧ b < 128 ∧ ∀ x ∈ bytes, x.toNat ≠ b := by
  have hcard : (bytes.map UInt8.toNat).toFinset.card < (Finset.Ico 8 128).card := by
    rw [Nat.card_Ico]
    have hle := List.toFinset_card_le (bytes.map UInt8.toNat)
    rw [List.length_map] at hle
    omega
  obtain ⟨b, hb, hnot⟩ := Finset.exists_mem_notMem_of_card_lt_card hcard
  rw [Finset.mem_Ico] at hb
  rw [List.mem_toFinset, List.mem_map] at hnot
  exact ⟨b, hb.1, hb.2, fun x hx heq => hnot ⟨x, hx, heq⟩⟩

theorem readWord_eq_high {bytes : Bytes} {b : ℕ} (hb : b < 256) (h : readWord bytes = .ofNat 32 (b * 2 ^ 24)) :
    (bytes.getD 3 0).toNat = b := by
  have hnat := congrArg BitVec.toNat h
  simp only [readWord, BitVec.toNat_ofNat] at hnat
  have h₀ := (bytes.getD 0 0).toNat_lt
  have h₁ := (bytes.getD 1 0).toNat_lt
  have h₂ := (bytes.getD 2 0).toNat_lt
  have h₃ := (bytes.getD 3 0).toNat_lt
  omega

/-- A record takes its header, or with the sizes of what it holds at least 44 bytes. -/
theorem length_cases (r : LogRecord) : r.serialize.length = 24 ∨ 44 ≤ r.serialize.length := by
  rw [length_record]
  cases r.body with
  | begin | commit | abort => exact .inl rfl
  | insert value place | delete value place | update oldValue newValue place =>
    right
    rw [LogBody.size, LogPlace.size]
    omega

/-- A body of zeros. -/
def blank (length : ℕ) : LogBody :=
  if length = 24 then .begin else .insert (List.replicate (length - 44) 0) ⟨0, 0, []⟩

theorem size_blank {length : ℕ} (h : length = 24 ∨ 44 ≤ length) : logHeaderSize + (blank length).size = length := by
  unfold blank
  split
  · rename_i heq
    exact heq.symm
  · rename_i hne
    simp only [LogBody.size, LogPlace.size, List.length_replicate, List.length_nil]
    show 24 + _ = _
    omega

theorem mem_blank {length : ℕ} {x : UInt8} (hx : x ∈ (blank length).serialize) :
    x ∈ wordBytes (.ofNat 32 (length - 44)) ∨ x = 0 := by
  unfold blank at hx
  split at hx
  · exact absurd hx List.not_mem_nil
  · rw [LogBody.serialize, LogBody.serializeValue, List.length_replicate, List.mem_append, List.mem_append] at hx
    rcases hx with (hx | hx) | hx
    · exact .inl hx
    · exact .inr (List.eq_of_mem_replicate hx)
    · have hzero : LogPlace.serialize ⟨0, 0, []⟩ = List.replicate 16 0 := by decide
      rw [hzero] at hx
      exact .inr (List.eq_of_mem_replicate hx)

/-- For every length of a record there is one whose number appears nowhere behind its place. -/
theorem exists_lone {length : ℕ} (h : length = 24 ∨ 44 ≤ length) (hfits : length < 2 ^ 31) :
    ∃ r : LogRecord, r.Written ∧ r.serialize.length = length ∧ 2 ^ 27 ≤ r.lsn.toNat ∧
      ∀ before : Bytes, ∀ k, before.length < k → k + 24 ≤ (before ++ r.serialize).length →
        readWord ((before ++ r.serialize).drop (k + offsetLsn)) ≠ r.lsn := by
  obtain ⟨b, hlow, hhigh, hfree⟩ := exists_byte_notMem
    (wordBytes (.ofNat 32 length) ++ (wordBytes (.ofNat 32 (length - 44)) ++ [0, 255]))
    (by rw [List.length_append, List.length_append, length_wordBytes, length_wordBytes]; decide)
  have hsize := size_blank h
  obtain ⟨r, hr⟩ : ∃ r, r = (LogRecord.construct 0 (blank length)).withLsn (.ofNat 32 (b * 2 ^ 24)) := ⟨_, rfl⟩
  have hlength : r.serialize.length = length := by
    rw [hr, length_record]
    exact hsize
  have hlsn : r.lsn = .ofNat 32 (b * 2 ^ 24) := by
    rw [hr]
    rfl
  have hbytes : r.serialize.drop 8 = wordBytes (.ofNat 32 length) ++ (List.replicate 8 0 ++
      (List.replicate 4 255 ++ (blank length).serialize)) := by
    have htid : dwordBytes 0 = List.replicate 8 0 := by decide
    have hprev : wordBytes invalidLsn = List.replicate 4 255 := by decide
    have htotLen : LogRecord.logTotLen (.construct 0 (blank length)) = .ofNat 32 length :=
      congrArg (BitVec.ofNat 32) hsize
    rw [← htid, ← hprev, ← htotLen, hr]
    simp only [LogRecord.serialize, LogRecord.serializeHeader, List.append_assoc]
    rw [show 8 = 4 + 4 from rfl, ← List.drop_drop, List.drop_left' (length_wordBytes _),
      List.drop_left' (length_wordBytes _)]
    rfl
  have hfree' : ∀ x ∈ r.serialize.drop 8, x.toNat ≠ b := by
    intro x hx
    rw [hbytes, List.mem_append, List.mem_append, List.mem_append] at hx
    apply hfree
    simp only [List.mem_append, List.mem_cons]
    rcases hx with hx | hx | hx | hx
    · exact .inl hx
    · exact .inr (.inr (.inl (List.eq_of_mem_replicate hx)))
    · exact .inr (.inr (.inr (.inl (List.eq_of_mem_replicate hx))))
    · rcases mem_blank hx with hx | hx
      · exact .inr (.inl hx)
      · exact .inr (.inr (.inl hx))
  refine ⟨r, ?_, hlength, ?_, ?_⟩
  · rw [hr]
    exact LogRecord.Written.withLsn ⟨rfl, by show logHeaderSize + (blank length).size < _; omega⟩ _
  · rw [hlsn, BitVec.toNat_ofNat]
    omega
  · intro before k hk hend heq
    rw [hlsn] at heq
    have hbyte := readWord_eq_high (by omega) heq
    rw [List.length_append] at hend
    have hinside : k - 1 - before.length < (r.serialize.drop 8).length := by
      rw [List.length_drop]
      omega
    have hindex : k + offsetLsn + 3 = before.length + (8 + (k - 1 - before.length)) := by
      rw [offsetLsn]
      omega
    rw [List.getD_eq_getElem?_getD, List.getElem?_drop, hindex, List.getElem?_append_right (Nat.le_add_right _ _),
      Nat.add_sub_cancel_left, ← List.getElem?_drop, List.getElem?_eq_getElem hinside, Option.getD_some] at hbyte
    exact hfree' _ (List.getElem_mem hinside) hbyte

/-! ### Logs of a layout -/

theorem withinReads_of_layout {log records : List LogRecord} {offset : ℕ}
    (h : log.map (·.serialize.length) <+: records.map (·.serialize.length)) (hwithin : WithinReads offset records) :
    WithinReads offset log := by
  induction log generalizing records offset with
  | nil => trivial
  | cons r log ih =>
    cases records with
    | nil => exact absurd (List.prefix_nil.mp h) (List.cons_ne_nil _ _)
    | cons r' records =>
      rw [List.map_cons, List.map_cons, List.cons_prefix_cons] at h
      obtain ⟨hlength, hrest⟩ := h
      rw [WithinReads, hlength]
      exact ⟨hwithin.1, ih hrest hwithin.2⟩

theorem length_le_of_layout {log records : List LogRecord}
    (h : log.map (·.serialize.length) <+: records.map (·.serialize.length)) :
    (log.flatMap LogRecord.serialize).length ≤ (records.flatMap LogRecord.serialize).length := by
  obtain ⟨lengths, hlengths⟩ := h
  rw [List.length_flatMap, List.length_flatMap, ← hlengths, List.sum_append]
  exact Nat.le_add_right _ _

/-- The same records with their places in the list as numbers. -/
def number (log : List LogRecord) : List LogRecord := log.mapIdx fun k r => r.withLsn (.ofNat 32 k)

theorem lengths_number (log : List LogRecord) :
    (number log).map (·.serialize.length) = log.map (·.serialize.length) := by
  apply List.ext_getElem
  · rw [number, List.length_map, List.length_map, List.length_mapIdx]
  · intro k _ _
    simp only [number, List.getElem_map, List.getElem_mapIdx, length_record]
    rfl

theorem mem_number {log : List LogRecord} (h : ∀ r ∈ log, r.Written) (hr : r ∈ number log) :
    r.Written ∧ ∃ k < log.length, r.lsn = .ofNat 32 k := by
  obtain ⟨k, hk, rfl⟩ := List.mem_mapIdx.mp hr
  exact ⟨(h _ (List.getElem_mem hk)).withLsn _, k, hk, rfl⟩

theorem count_le (log : List LogRecord) : 24 * log.length ≤ (log.flatMap LogRecord.serialize).length := by
  induction log with
  | nil => exact Nat.le_refl _
  | cons r log ih =>
    have hlong := header_le r
    rw [List.flatMap_cons, List.length_append, List.length_cons]
    omega

/-- In front of a record with a number that no log comes to. -/
theorem wellFormed_number {log : List LogRecord} (h : ∀ r ∈ log, r.Written) (hr : r.Written) (hlsn : 2 ^ 27 ≤ r.lsn.toNat)
    (hfits : (log.flatMap LogRecord.serialize).length < 2 ^ 31) :
    WellFormedLog (number log ++ [r]) ∧ ∀ r' ∈ number log, r'.Written ∧ r'.lsn ≠ r.lsn := by
  have hcount := count_le log
  have hnat : ∀ k < log.length, (BitVec.ofNat 32 k).toNat = k := by
    intro k hk
    rw [BitVec.toNat_ofNat]
    omega
  have hother : ∀ r' ∈ number log, r'.Written ∧ r'.lsn ≠ r.lsn := by
    intro r' hr'
    obtain ⟨hwritten, k, hk, hlsn'⟩ := mem_number h hr'
    refine ⟨hwritten, fun heq => ?_⟩
    rw [← heq, hlsn', hnat k hk] at hlsn
    omega
  refine ⟨⟨?_, ?_⟩, hother⟩
  · intro r' hr'
    rcases List.mem_append.mp hr' with hr' | hr'
    · exact (hother r' hr').1
    · exact List.mem_singleton.mp hr' ▸ hr
  · rw [List.pairwise_append]
    refine ⟨?_, List.pairwise_singleton _ _, fun r' hr' r'' hr'' => List.mem_singleton.mp hr'' ▸ (hother r' hr').2⟩
    rw [List.pairwise_iff_getElem]
    intro i j hi hj hlt
    rw [number, List.length_mapIdx] at hi hj
    simp only [number, List.getElem_mapIdx, LogRecord.withLsn]
    intro heq
    have hnumbers := congrArg BitVec.toNat heq
    rw [hnat i hi, hnat j hj] at hnumbers
    omega

/-- A file of 2^31 bytes or more is taken to have a negative size. -/
theorem not_yields_huge {logFile : Bytes} (stale : Vector UInt8 logBufferSize) (lsn : BitVec 32)
    (hlarge : 2 ^ 31 ≤ logFile.length) (hfits : logFile.length < 2 ^ 32) :
    ¬(readLoop lsn).Yields stale logFile () (some (some r)) := by
  have hsize : ¬0 ≤ int32 logFile.length := by
    rw [int32, BitVec.toInt_ofInt, Int.bmod_def]
    split <;> omega
  have hread : readLog logFile logBufferSize 0 = none := by
    unfold readLog
    exact if_pos (Int.not_le.mp hsize)
  have hstep : (readLoop lsn).step logFile (LogLoop.start stale ()) = some (.ended (some none)) := by
    rw [LogLoop.start, LogLoop.step, hread]
    rfl
  intro hyields
  exact absurd (ended_unique (.single hstep) hyields) (by simp)

/-- Where a layout has a record that crosses the end of a read, or goes over the size of a file, one of its logs has a
record that is not found. -/
theorem exists_lost (stale : Vector UInt8 logBufferSize) (before : List LogRecord) (last : LogRecord)
    (h : ∀ r ∈ before ++ [last], r.Written) (hwithin : WithinReads 0 before)
    (hfits : (before.flatMap LogRecord.serialize).length < 2 ^ 31)
    (hbad : ¬(WithinReads 0 (before ++ [last]) ∧ ((before ++ [last]).flatMap LogRecord.serialize).length < 2 ^ 31)) :
    ∃ log, WellFormedLog log ∧ log.map (·.serialize.length) = (before ++ [last]).map (·.serialize.length) ∧
      ¬FindsAll stale log := by
  have hbefore : ∀ r ∈ before, r.Written := fun r hr => h r (List.mem_append_left _ hr)
  have hlast := h last (List.mem_append_right _ List.mem_cons_self)
  have hlastFits : last.serialize.length < 2 ^ 31 := by
    rw [length_record]
    exact hlast.fits
  obtain ⟨r, hr, hlength, hlsn, hfar⟩ := exists_lone (length_cases last) hlastFits
  obtain ⟨hformed, hother⟩ := wellFormed_number hbefore hr hlsn hfits
  have hsame : ((number before).flatMap LogRecord.serialize).length = (before.flatMap LogRecord.serialize).length := by
    rw [List.length_flatMap, List.length_flatMap, lengths_number]
  have hlayout : (number before ++ [r]).map (·.serialize.length) = (before ++ [last]).map (·.serialize.length) := by
    rw [List.map_append, List.map_append, lengths_number, List.map_singleton, List.map_singleton, hlength]
  refine ⟨number before ++ [r], hformed, hlayout, fun hfinds => ?_⟩
  have hyields := hfinds r (List.mem_append_right _ List.mem_cons_self)
  rw [List.flatMap_append, List.flatMap_singleton] at hyields
  rw [List.flatMap_append, List.flatMap_singleton, List.length_append] at hbad
  by_cases htotal : ((number before).flatMap LogRecord.serialize ++ r.serialize).length < 2 ^ 31
  · have hwithin' : WithinReads 0 (number before) :=
      withinReads_of_layout (by rw [lengths_number]) hwithin
    have hcross : logBufferSize <
        ((number before).flatMap LogRecord.serialize).length % logBufferSize + r.serialize.length := by
      by_contra hroom
      rw [List.length_append] at htotal
      rw [hsame, hlength] at hroom htotal
      have hend : WithinReads (0 + (before.flatMap LogRecord.serialize).length) [last] := by
        rw [Nat.zero_add]
        exact ⟨Nat.not_lt.mp hroom, trivial⟩
      exact hbad ⟨withinReads_append.mpr ⟨hwithin, hend⟩, htotal⟩
    exact not_yields_crossing stale hother htotal hwithin' hcross (hfar _) hyields
  · rw [List.length_append, hsame, hlength] at htotal
    have hlarge : 2 ^ 31 ≤ ((number before).flatMap LogRecord.serialize ++ r.serialize).length := by
      rw [List.length_append, hsame, hlength]
      exact Nat.not_lt.mp htotal
    have hint : ((number before).flatMap LogRecord.serialize ++ r.serialize).length < 2 ^ 32 := by
      rw [List.length_append, hsame, hlength]
      omega
    exact not_yields_huge stale r.lsn hlarge hint hyields

/-- Every log with a layout finds all of its records as it grows, just when in the layout no record crosses the end of a
read and the size of the file is an `int`. -/
theorem findsAll_layout_iff (stale : Vector UInt8 logBufferSize) (records : List LogRecord) (h : ∀ r ∈ records, r.Written) :
    (∀ log, WellFormedLog log → log.map (·.serialize.length) <+: records.map (·.serialize.length) → FindsAll stale log) ↔
      WithinReads 0 records ∧ (records.flatMap LogRecord.serialize).length < 2 ^ 31 := by
  constructor
  · intro hfinds
    induction records using List.reverseRecOn with
    | nil => exact ⟨trivial, by decide⟩
    | append_singleton before last ih =>
      have hprefix : before.map (·.serialize.length) <+: (before ++ [last]).map (·.serialize.length) := by
        rw [List.map_append]
        exact List.prefix_append _ _
      obtain ⟨hwithin, hfits⟩ := ih (fun r hr => h r (List.mem_append_left _ hr)) fun log hlog hlayout =>
        hfinds log hlog (hlayout.trans hprefix)
      by_contra hbad
      obtain ⟨log, hlog, hlayout, hlost⟩ := exists_lost stale before last h hwithin hfits hbad
      exact hlost (hfinds log hlog (by rw [hlayout]))
  · intro ⟨hwithin, hfits⟩ log hlog hlayout
    exact findsAll_of_withinReads stale hlog (Nat.lt_of_le_of_lt (length_le_of_layout hlayout) hfits)
      (withinReads_of_layout hlayout hwithin)

theorem findsAll_layout_twoTables :
    (∀ log, WellFormedLog log → log.map (·.serialize.length) <+: twoTables.map (·.serialize.length) →
      FindsAll (.replicate _ 0) log) ↔
      WithinReads 0 twoTables ∧ (twoTables.flatMap LogRecord.serialize).length < 2 ^ 31 :=
  findsAll_layout_iff _ twoTables twoTables_written

/-! ### A log with a record that is not found -/

theorem withinReads_of_le {log : List LogRecord} {offset : ℕ}
    (h : offset + (log.flatMap LogRecord.serialize).length ≤ logBufferSize) : WithinReads offset log := by
  induction log generalizing offset with
  | nil => trivial
  | cons r log ih =>
    rw [List.flatMap_cons, List.length_append, ← Nat.add_assoc] at h
    have hmod := Nat.mod_le offset logBufferSize
    exact ⟨by omega, ih h⟩

/-- A record of a transaction that changes nothing. -/
def emptyTxn (k : ℕ) : LogRecord :=
  (LogRecord.construct (.ofNat 64 (k / 2)) (if k % 2 = 0 then .begin else .commit)).withLsn (.ofNat 32 k)

theorem size_emptyTxn (k : ℕ) : (emptyTxn k).body.size = 0 := by
  show LogBody.size (if k % 2 = 0 then .begin else .commit) = 0
  split <;> rfl

theorem emptyTxn_written (k : ℕ) : (emptyTxn k).Written := by
  apply LogRecord.Written.withLsn
  refine ⟨rfl, ?_⟩
  show logHeaderSize + (emptyTxn k).body.size < _
  rw [size_emptyTxn]
  decide

theorem length_emptyTxn (k : ℕ) : (emptyTxn k).serialize.length = 24 := by
  rw [length_record, size_emptyTxn]

theorem length_emptyTxns (n : ℕ) : (((List.range n).map emptyTxn).flatMap LogRecord.serialize).length = 24 * n := by
  induction n with
  | zero => rfl
  | succ n ih =>
    rw [List.range_succ, List.map_append, List.flatMap_append, List.length_append, ih, List.map_singleton,
      List.flatMap_singleton, length_emptyTxn, Nat.mul_succ]

theorem lsn_emptyTxn_ne {i j : ℕ} (hlt : i < j) (hj : j < 2 ^ 32) : (emptyTxn i).lsn ≠ (emptyTxn j).lsn := by
  intro heq
  have hnat : i % 2 ^ 32 = j % 2 ^ 32 := congrArg BitVec.toNat heq
  omega

theorem wellFormed_emptyTxns {n : ℕ} (hn : n ≤ 2 ^ 32) : WellFormedLog ((List.range n).map emptyTxn) where
  written := by
    intro r hr
    obtain ⟨k, -, rfl⟩ := List.mem_map.mp hr
    exact emptyTxn_written k
  distinct := by
    rw [List.pairwise_map]
    exact List.pairwise_lt_range.imp_of_mem fun _ hj hlt => lsn_emptyTxn_ne hlt (by rw [List.mem_range] at hj; omega)

/-- The header of the last record begins 16 bytes in front of the end of the first read. -/
theorem not_findsAll_emptyTxns : WellFormedLog ((List.range 174763).map emptyTxn) ∧
    ∀ stale, ¬FindsAll stale ((List.range 174763).map emptyTxn) := by
  refine ⟨wellFormed_emptyTxns (by decide), fun stale hfinds => ?_⟩
  have hsize : logBufferSize = 4194304 := rfl
  have hyields := hfinds (emptyTxn 174762) (List.mem_map_of_mem (List.mem_range.mpr (by decide)))
  have hlength := length_emptyTxns 174762
  have hlast := length_emptyTxn 174762
  rw [show 174763 = 174762 + 1 from rfl, List.range_succ, List.map_append, List.flatMap_append, List.map_singleton,
    List.flatMap_singleton] at hyields
  have hbefore : ∀ r ∈ (List.range 174762).map emptyTxn, r.Written ∧ r.lsn ≠ (emptyTxn 174762).lsn := by
    intro r hr
    obtain ⟨k, hk, rfl⟩ := List.mem_map.mp hr
    exact ⟨emptyTxn_written k, lsn_emptyTxn_ne (List.mem_range.mp hk) (by decide)⟩
  obtain ⟨before, hdef⟩ : ∃ before, before = (List.range 174762).map emptyTxn := ⟨_, rfl⟩
  rw [← hdef] at hyields hlength hbefore
  have hwithin : WithinReads 0 before := withinReads_of_le (by omega)
  refine not_yields_crossing stale hbefore ?_ hwithin ?_ ?_ hyields
  · rw [List.length_append]
    omega
  · rw [hlength, hlast, hsize]
    decide
  · intro k hk hend
    rw [List.length_append] at hend
    omega

end RecoveryManager
end Rmdb
