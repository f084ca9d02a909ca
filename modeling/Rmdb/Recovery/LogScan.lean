import Rmdb.Recovery.LogRecovery
import Rmdb.Lib.Loops
import Mathlib.Data.BitVec

/-! The two loops of the recovery over the log file, as they go from one place to the next. The outer one reads
a piece of the file into the buffer, the inner one goes over the records in it. -/
namespace Rmdb

open StateTransition

/-- What a turn of the inner loop does. -/
inductive Turn (σ ρ : Type) where
  | next (place : BitVec 32) (s : σ)
  | leave
  | done (result : ρ)

/-- The places are an `int`. What a loop has found so far is its state. -/
structure LogLoop (σ ρ : Type) where
  maxReads : Option ℕ
  turn : Bytes → ℕ → BitVec 32 → σ → Turn σ ρ
  finish : σ → ρ

/-- Where a loop is: before a read, or at a place in the bytes read. -/
inductive Scan (σ ρ : Type) where
  | reading (buffer : Bytes) (offset reads : ℕ) (s : σ)
  | within (buffer : Bytes) (bytesRead offset reads : ℕ) (place : BitVec 32) (s : σ)
  | ended (result : ρ)

namespace LogLoop

variable {σ ρ : Type}

/-- What the buffer holds behind the bytes just read is left from before. -/
def step (l : LogLoop σ ρ) (logFile : Bytes) : Scan σ ρ → Option (Scan σ ρ)
  | .reading buffer offset reads s =>
    if l.maxReads.any (· ≤ reads) then some (.ended (l.finish s))
    else
      match readLog logFile logBufferSize offset with
      | none => some (.ended (l.finish s))
      | some [] => some (.ended (l.finish s))
      | some bytes => some (.within (bytes ++ buffer.drop bytes.length) bytes.length offset (reads + 1) 0 s)
  | .within buffer bytesRead offset reads place s =>
    if place.toInt < bytesRead then
      match l.turn buffer bytesRead place s with
      | .next place s => some (.within buffer bytesRead offset reads place s)
      | .leave => some (.reading buffer (offset + bytesRead) reads s)
      | .done result => some (.ended result)
    else some (.reading buffer (offset + bytesRead) reads s)
  | .ended _ => none

/-- The buffer is not initialised. -/
def start (stale : Vector UInt8 logBufferSize) (s : σ) : Scan σ ρ := .reading stale.toList 0 0 s

def Yields (l : LogLoop σ ρ) (stale : Vector UInt8 logBufferSize) (logFile : Bytes) (s : σ) (result : ρ) : Prop :=
  Reaches (l.step logFile) (start stale s) (.ended result)

def Ends (l : LogLoop σ ρ) (stale : Vector UInt8 logBufferSize) (logFile : Bytes) (s : σ) : Prop :=
  ∃ result, l.Yields stale logFile s result

/-- The place to which the inner loop goes on from a place. -/
def after (l : LogLoop σ ρ) (buffer : Bytes) (bytesRead : ℕ) (s : σ) (place : BitVec 32) : Option (BitVec 32) :=
  if place.toInt < bytesRead then
    match l.turn buffer bytesRead place s with
    | .next place _ => some place
    | .leave => none
    | .done _ => none
  else none

/-- The loop goes over records of these lengths, one behind the other, from one place to another. -/
inductive Passes (l : LogLoop σ ρ) (buffer : Bytes) (bytesRead : ℕ) (s : σ) :
    BitVec 32 → List (BitVec 32) → BitVec 32 → Prop where
  | nil (place : BitVec 32) : Passes l buffer bytesRead s place [] place
  | cons {place next last logTotLen : BitVec 32} {lengths : List (BitVec 32)}
      (hnext : l.after buffer bytesRead s place = some next)
      (hlength : RecoveryManager.wordAt buffer (place.toInt + offsetLogTotLen) = some logTotLen)
      (hrest : Passes l buffer bytesRead s next lengths last) :
      Passes l buffer bytesRead s place (logTotLen :: lengths) last

/-- In no piece of the file that the loop gets to read, the lengths of some records in a row that it goes over add
up to a multiple of 2^32. -/
def NoRoundTrip (l : LogLoop σ ρ) (stale : Vector UInt8 logBufferSize) (logFile : Bytes) (s : σ) : Prop :=
  ∀ buffer bytesRead offset reads s',
    Reaches (l.step logFile) (start stale s) (.within buffer bytesRead offset reads 0 s') →
      ∀ before lengths place last, l.Passes buffer bytesRead s' 0 before place →
        l.Passes buffer bytesRead s' place lengths last → lengths ≠ [] → lengths.sum ≠ 0

end LogLoop

namespace RecoveryManager

/-- A record takes the loop of `analyze` to the place behind it, or the read fails. -/
def analyzeLoop : LogLoop RecoveryManager (Option RecoveryManager) where
  maxReads := none
  turn buffer _ place rm :=
    match analyzeRecord buffer place.toInt rm with
    | none => .done none
    | some (rm, next) => .next (.ofInt 32 next) rm
  finish := some

/-- `RmRecord::Deserialize` at a place in the buffer. -/
def valueAt (buffer : Bytes) (place : ℤ) : Option Bytes := do
  let size ← wordAt buffer place
  if size.toInt < 0 then none
  else (bytesAt buffer (place + 4) size.toNat).map (·.take size.toNat)

def placeAt (buffer : Bytes) (place : ℤ) : Option LogPlace := do
  let rid ← bytesAt buffer place 8
  let tableNameSize ← (bytesAt buffer (place + 8) 8).map readDword
  let tableName ← (bytesAt buffer (place + 16) tableNameSize.toNat).map (·.take tableNameSize.toNat)
  return ⟨readWord rid, readWord (rid.drop 4), tableName⟩

def bodyAt (buffer : Bytes) (place : ℤ) : LogType → Option LogBody
  | .begin => some .begin
  | .commit => some .commit
  | .abort => some .abort
  | .insert => do
    let value ← valueAt buffer place
    return .insert value (← placeAt buffer (place + (value.length + 4)))
  | .delete => do
    let value ← valueAt buffer place
    return .delete value (← placeAt buffer (place + (value.length + 4)))
  | .update => do
    let oldValue ← valueAt buffer place
    let newValue ← valueAt buffer (place + (oldValue.length + 4))
    return .update oldValue newValue (← placeAt buffer (place + (oldValue.length + 4 + (newValue.length + 4))))

/-- `deserialize` of the class for a type, on the buffer from a place on. It fails where a read leaves the buffer. -/
def deserializeAt (buffer : Bytes) (place : ℤ) (type : LogType) : Option LogRecord := do
  let lsn ← wordAt buffer (place + offsetLsn)
  let logTotLen ← wordAt buffer (place + offsetLogTotLen)
  let logTid ← (bytesAt buffer (place + offsetLogTid) 8).map readDword
  let prevLsn ← wordAt buffer (place + offsetPrevLsn)
  let body ← bodyAt buffer (place + offsetLogData) type
  return { lsn, logTotLen, logTid, prevLsn, body }

/-- What `read_log_record` returns at the record with its number: a null pointer where the type is none. -/
def createLogRecord (buffer : Bytes) (place : ℤ) : Option (Option LogRecord) := do
  let typeWord ← wordAt buffer (place + offsetLogType)
  match LogType.ofWord typeWord with
  | none => return none
  | some type => some <$> deserializeAt buffer place type

/-- The loop of `read_log_record`. The end of a record is compared as an `unsigned`. -/
def readLoop (lsn : BitVec 32) : LogLoop Unit (Option (Option LogRecord)) where
  maxReads := some 1000
  turn buffer bytesRead place _ :=
    if (bytesRead : ℤ) < place.toInt + logHeaderSize then .leave
    else
      match wordAt buffer (place.toInt + offsetLsn), wordAt buffer (place.toInt + offsetLogTotLen) with
      | some currentLsn, some logTotLen =>
        if currentLsn = lsn then .done (createLogRecord buffer place.toInt)
        else if logTotLen = 0 ∨ bytesRead < (place + logTotLen).toNat then .leave
        else .next (place + logTotLen) ()
      | _, _ => .done none
  finish _ := some none

end RecoveryManager

namespace LogLoop

open Relation Loops

variable {σ ρ : Type} {l : LogLoop σ ρ} {buffer logFile : Bytes} {bytesRead offset reads : ℕ} {s s' : σ}
  {place place' : BitVec 32} {lengths : List (BitVec 32)}

/-- Where the inner loop goes does not hang on what it has found, and the length that it reads takes it there. -/
structure ByLength (l : LogLoop σ ρ) : Prop where
  after_eq : ∀ buffer bytesRead s s' place, l.after buffer bytesRead s place = l.after buffer bytesRead s' place
  length : ∀ {buffer bytesRead s place place'}, l.after buffer bytesRead s place = some place' →
    RecoveryManager.wordAt buffer (place.toInt + offsetLogTotLen) = some (place' - place)

theorem step_within (h : l.after buffer bytesRead s place = some place') :
    ∃ s', l.step logFile (.within buffer bytesRead offset reads place s) =
      some (.within buffer bytesRead offset reads place' s') := by
  unfold after at h
  split at h
  · rename_i hlt
    split at h
    · rename_i next s' hturn
      obtain rfl := Option.some.inj h
      exact ⟨s', by rw [step, if_pos hlt, hturn]⟩
    · exact absurd h nofun
    · exact absurd h nofun
  · exact absurd h nofun

/-- Where the inner loop does not go on, it ends or is left for the next read. -/
theorem step_within_none (h : l.after buffer bytesRead s place = none) :
    (∃ result, l.step logFile (.within buffer bytesRead offset reads place s) = some (.ended result)) ∨
      ∃ s', l.step logFile (.within buffer bytesRead offset reads place s) =
        some (.reading buffer (offset + bytesRead) reads s') := by
  unfold after at h
  split at h
  · rename_i hlt
    split at h
    · exact absurd h nofun
    · rename_i hturn
      exact .inr ⟨s, by rw [step, if_pos hlt, hturn]⟩
    · rename_i result hturn
      exact .inl ⟨result, by rw [step, if_pos hlt, hturn]⟩
  · rename_i hlt
    exact .inr ⟨s, by rw [step, if_neg hlt]⟩

theorem Passes.last_eq (hl : l.ByLength) (h : l.Passes buffer bytesRead s place lengths place') :
    place' = place + lengths.sum := by
  induction h with
  | nil place =>
    rw [List.sum_nil, add_zero]
  | cons hnext hlength _ ih =>
    obtain rfl := Option.some.inj (hlength.symm.trans (hl.length hnext))
    rw [ih, List.sum_cons, ← add_assoc, add_sub_cancel]

theorem reaches_iff (hl : l.ByLength) : Reaches (l.after buffer bytesRead s) place place' ↔
    ∃ lengths, l.Passes buffer bytesRead s place lengths place' := by
  constructor
  · intro h
    induction h using ReflTransGen.head_induction_on with
    | refl => exact ⟨[], .nil place'⟩
    | head hnext _ ih =>
      obtain ⟨lengths, hpasses⟩ := ih
      exact ⟨_, .cons hnext (hl.length hnext) hpasses⟩
  · intro ⟨lengths, h⟩
    induction h with
    | nil place => exact .refl
    | cons hnext _ _ ih => exact .head hnext ih

theorem reaches₁_iff (hl : l.ByLength) : Reaches₁ (l.after buffer bytesRead s) place place' ↔
    ∃ lengths, lengths ≠ [] ∧ l.Passes buffer bytesRead s place lengths place' := by
  constructor
  · intro h
    obtain ⟨next, hnext, hrest⟩ := TransGen.head'_iff.mp h
    obtain ⟨lengths, hpasses⟩ := (reaches_iff hl).mp hrest
    exact ⟨_, List.cons_ne_nil _ _, .cons hnext (hl.length hnext) hpasses⟩
  · intro ⟨lengths, hne, h⟩
    cases h with
    | nil => exact absurd rfl hne
    | cons hnext _ hrest => exact TransGen.head'_iff.mpr ⟨_, hnext, (reaches_iff hl).mpr ⟨_, hrest⟩⟩

theorem finite_places : Finite (BitVec 32) :=
  Finite.of_injective BitVec.toFin fun _ _ h => BitVec.toFin_inj.mp h

/-- The inner loop leaves a piece just when no lengths in a row take it back to where it was. -/
theorem stops_after_iff (hl : l.ByLength) : Stops (l.after buffer bytesRead s) 0 ↔
    ∀ before lengths place last, l.Passes buffer bytesRead s 0 before place →
      l.Passes buffer bytesRead s place lengths last → lengths ≠ [] → lengths.sum ≠ 0 := by
  have := finite_places
  rw [stops_iff]
  constructor
  · intro h before lengths place last hbefore hlengths hne hsum
    have hlast := hlengths.last_eq hl
    rw [hsum, add_zero] at hlast
    subst hlast
    exact h last ((reaches_iff hl).mpr ⟨before, hbefore⟩) ((reaches₁_iff hl).mpr ⟨lengths, hne, hlengths⟩)
  · intro h place hplace hround
    obtain ⟨before, hbefore⟩ := (reaches_iff hl).mp hplace
    obtain ⟨lengths, hne, hlengths⟩ := (reaches₁_iff hl).mp hround
    exact h before lengths place place hbefore hlengths hne (left_eq_add.mp (hlengths.last_eq hl))

/-- As the inner loop goes, so do both. -/
theorem reaches_within (hl : l.ByLength) (logFile : Bytes) (offset reads : ℕ)
    (h : Reaches (l.after buffer bytesRead s) place place') :
    ∃ s', Reaches (l.step logFile) (.within buffer bytesRead offset reads place s)
      (.within buffer bytesRead offset reads place' s') := by
  induction h with
  | refl => exact ⟨s, .refl⟩
  | tail _ hnext ih =>
    obtain ⟨s₁, hreaches⟩ := ih
    obtain ⟨s₂, hstep⟩ := step_within ((hl.after_eq ..).trans hnext)
    exact ⟨s₂, hreaches.tail hstep⟩

theorem reaches₁_within (hl : l.ByLength) (logFile : Bytes) (offset reads : ℕ)
    (h : Reaches₁ (l.after buffer bytesRead s) place place') :
    ∃ s', Reaches₁ (l.step logFile) (.within buffer bytesRead offset reads place s)
      (.within buffer bytesRead offset reads place' s') := by
  obtain ⟨next, hnext, hrest⟩ := TransGen.head'_iff.mp h
  obtain ⟨s₁, hstep⟩ := step_within hnext
  have hrest' : Reaches (l.after buffer bytesRead s₁) next place' := by
    rwa [show l.after buffer bytesRead s₁ = l.after buffer bytesRead s from funext fun w => hl.after_eq ..]
  obtain ⟨s₂, hreaches⟩ := reaches_within hl logFile offset reads hrest'
  exact ⟨s₂, TransGen.head'_iff.mpr ⟨_, hstep, hreaches⟩⟩

theorem ends_iff_stops {stale : Vector UInt8 logBufferSize} :
    l.Ends stale logFile s ↔ Stops (l.step logFile) (start stale s) := by
  constructor
  · intro ⟨result, h⟩
    exact ⟨_, h, rfl⟩
  · intro ⟨c, hreaches, hc⟩
    cases c with
    | reading buffer offset reads s' =>
      unfold step at hc
      grind
    | within buffer bytesRead offset reads place s' =>
      unfold step at hc
      grind
    | ended result => exact ⟨result, hreaches⟩

/-- A loop that stops leaves every piece that it gets to read. -/
theorem stops_after_of_stops (hl : l.ByLength) (h : Stops (l.step logFile) (.within buffer bytesRead offset reads 0 s)) :
    Stops (l.after buffer bytesRead s) 0 := by
  have := finite_places
  rw [stops_iff]
  intro place hplace hround
  obtain ⟨s₁, hreaches⟩ := reaches_within hl logFile offset reads hplace
  have hrecurs : ∀ c : Scan σ ρ, (∃ s', c = .within buffer bytesRead offset reads place s') →
      ∃ c', (∃ s', c' = .within buffer bytesRead offset reads place s') ∧ Reaches₁ (l.step logFile) c c' := by
    rintro c ⟨s₂, rfl⟩
    have hround' : Reaches₁ (l.after buffer bytesRead s₂) place place := by
      rwa [show l.after buffer bytesRead s₂ = l.after buffer bytesRead s from funext fun w => hl.after_eq ..]
    obtain ⟨s₃, hreaches₁⟩ := reaches₁_within hl logFile offset reads hround'
    exact ⟨_, ⟨s₃, rfl⟩, hreaches₁⟩
  exact not_stops_of_recurs hrecurs ⟨s₁, rfl⟩ (h.reaches hreaches)

theorem length_readLog {size : ℕ} {bytes : Bytes} (h : readLog logFile size offset = some bytes) :
    bytes.length ≤ logFile.length - offset := by
  unfold readLog at h
  dsimp only at h
  split at h
  · exact absurd h nofun
  · obtain rfl := Option.some.inj h
    rw [List.length_take, List.length_drop]
    exact Nat.min_le_right _ _

/-- Every read takes the outer loop on through the file, so it stops where the inner one leaves every piece. -/
theorem stops_reading {a : Scan σ ρ} (hl : l.ByLength)
    (hpieces : ∀ buffer bytesRead offset reads s, Reaches (l.step logFile) a (.within buffer bytesRead offset reads 0 s) →
      Stops (l.after buffer bytesRead s) 0)
    (h : Reaches (l.step logFile) a (.reading buffer offset reads s)) :
    Stops (l.step logFile) (.reading buffer offset reads s) := by
  obtain ⟨left, hleft⟩ : ∃ left, left = logFile.length - offset := ⟨_, rfl⟩
  induction left using Nat.strong_induction_on generalizing buffer offset reads s with
  | _ left ih =>
    have hended : ∀ {c : Scan σ ρ} {result : ρ}, l.step logFile c = some (.ended result) → Stops (l.step logFile) c :=
      fun hstep => ⟨_, .single hstep, rfl⟩
    by_cases hmax : l.maxReads.any (· ≤ reads)
    · exact hended (by rw [step, if_pos hmax])
    · cases hread : readLog logFile logBufferSize offset with
      | none => exact hended (by rw [step, if_neg hmax, hread])
      | some bytes =>
        cases bytes with
        | nil => exact hended (by rw [step, if_neg hmax, hread])
        | cons b bytes =>
          have hlen := length_readLog hread
          rw [List.length_cons] at hlen
          obtain ⟨piece, hpiece⟩ : ∃ piece, piece = (b :: bytes) ++ buffer.drop (b :: bytes).length := ⟨_, rfl⟩
          have hstep : l.step logFile (.reading buffer offset reads s) =
              some (.within piece (bytes.length + 1) offset (reads + 1) 0 s) := by
            rw [step, if_neg hmax, hread, hpiece]
            rfl
          have hwithin := h.tail hstep
          obtain ⟨place, hplace, hnone⟩ := hpieces _ _ _ _ _ hwithin
          obtain ⟨s₁, hgoes⟩ := reaches_within hl logFile offset (reads + 1) hplace
          have hto : Reaches (l.step logFile) _ _ := ReflTransGen.head hstep hgoes
          apply Stops.of_reaches hto
          rcases step_within_none ((hl.after_eq ..).trans hnone) with ⟨result, hdone⟩ | ⟨s₂, hleave⟩
          · exact hended hdone
          · apply Stops.of_reaches (.single hleave)
            exact ih _ (by omega) ((h.trans hto).tail hleave) rfl

theorem ends_iff (hl : l.ByLength) (stale : Vector UInt8 logBufferSize) :
    l.Ends stale logFile s ↔ l.NoRoundTrip stale logFile s := by
  rw [ends_iff_stops]
  constructor
  · intro h buffer bytesRead offset reads s' hreaches
    exact (stops_after_iff hl).mp (stops_after_of_stops hl (h.reaches hreaches))
  · intro h
    apply stops_reading hl _ .refl
    exact fun buffer bytesRead offset reads s' hreaches => (stops_after_iff hl).mpr (h _ _ _ _ _ hreaches)

end LogLoop

namespace RecoveryManager

open Relation Loops LogLoop

variable {buffer : Bytes} {place : BitVec 32} {rm rm' : RecoveryManager}

/-- Whether a record can be analyzed does not hang on the tables. -/
theorem analyzeType_isSome (data : ℤ) (txnId : BitVec 64) (lsn : BitVec 32) (rm rm' : RecoveryManager) (type : LogType) :
    (analyzeType buffer data txnId lsn rm type).isSome = (analyzeType buffer data txnId lsn rm' type).isSome := by
  cases type with
  | begin | commit | abort => rfl
  | insert | delete =>
    simp only [analyzeType, bind, Option.bind]
    cases skipValue buffer data with
    | none => rfl
    | some rid => cases h : pageNoAt buffer rid <;> simp [h]
  | update =>
    simp only [analyzeType, bind, Option.bind]
    cases skipValue buffer data with
    | none => rfl
    | some newValue =>
      cases hrid : skipValue buffer newValue with
      | none => simp [hrid]
      | some rid => cases h : pageNoAt buffer rid <;> simp [hrid, h]

theorem analyzeRecord_eq_some {place next : ℤ} (h : analyzeRecord buffer place rm = some (rm', next)) :
    ∃ typeWord lsn logTotLen txnId type, wordAt buffer (place + offsetLogType) = some typeWord ∧
      wordAt buffer (place + offsetLsn) = some lsn ∧ wordAt buffer (place + offsetLogTotLen) = some logTotLen ∧
      bytesAt buffer (place + offsetLogTid) 8 = some txnId ∧ LogType.ofWord typeWord = some type ∧
      analyzeType buffer (place + offsetLogData) (readDword txnId) lsn rm type = some rm' ∧
      next = int32 (place + logTotLen.toNat) := by
  simp only [analyzeRecord, Option.bind_eq_bind, Option.bind_eq_some_iff, Option.map_eq_some_iff] at h
  obtain ⟨typeWord, htype, lsn, hlsn, logTotLen, hlen, _, ⟨txnId, htid, rfl⟩, type, hof, rm₁, hrm, heq⟩ := h
  cases heq
  exact ⟨typeWord, lsn, logTotLen, txnId, type, htype, hlsn, hlen, htid, hof, hrm, rfl⟩

theorem analyzeRecord_blind {place next : ℤ} (h : analyzeRecord buffer place rm = some (rm', next))
    (rm₁ : RecoveryManager) : ∃ rm₂, analyzeRecord buffer place rm₁ = some (rm₂, next) := by
  obtain ⟨typeWord, lsn, logTotLen, txnId, type, htype, hlsn, hlen, htid, hof, hrm, rfl⟩ := analyzeRecord_eq_some h
  have hsome : _ = (analyzeType buffer _ _ _ _ _).isSome :=
    analyzeType_isSome (place + offsetLogData) (readDword txnId) lsn rm₁ rm type
  rw [hrm] at hsome
  obtain ⟨rm₂, hrm₂⟩ := Option.isSome_iff_exists.mp hsome
  refine ⟨rm₂, ?_⟩
  simp only [analyzeRecord, htype, hlsn, hlen, htid, hof, hrm₂, Option.map_some, Option.bind_eq_bind, Option.bind_some]
  rfl

theorem after_analyzeLoop {bytesRead : ℕ} {next : BitVec 32} : analyzeLoop.after buffer bytesRead rm place = some next ↔
    place.toInt < bytesRead ∧ ∃ rm' next', analyzeRecord buffer place.toInt rm = some (rm', next') ∧
      next = .ofInt 32 next' := by
  unfold LogLoop.after analyzeLoop
  dsimp only
  by_cases hlt : place.toInt < bytesRead
  · rw [if_pos hlt, and_iff_right hlt]
    cases hrecord : analyzeRecord buffer place.toInt rm with
    | none => exact iff_of_false nofun nofun
    | some found =>
      constructor
      · intro h
        exact ⟨found.1, found.2, rfl, (Option.some.inj h).symm⟩
      · intro ⟨rm', next', heq, hnext⟩
        obtain rfl := Option.some.inj heq
        exact congrArg some hnext.symm
  · rw [if_neg hlt]
    exact iff_of_false nofun fun h => hlt h.1

theorem byLength_analyzeLoop : analyzeLoop.ByLength where
  after_eq := by
    intro buffer bytesRead rm rm' place
    apply Option.ext
    intro next
    rw [after_analyzeLoop, after_analyzeLoop]
    constructor
    · intro ⟨hlt, _, next', hrecord, hnext⟩
      obtain ⟨rm₂, hrecord'⟩ := analyzeRecord_blind hrecord rm'
      exact ⟨hlt, rm₂, next', hrecord', hnext⟩
    · intro ⟨hlt, _, next', hrecord, hnext⟩
      obtain ⟨rm₂, hrecord'⟩ := analyzeRecord_blind hrecord rm
      exact ⟨hlt, rm₂, next', hrecord', hnext⟩
  length := by
    intro buffer bytesRead rm place next h
    obtain ⟨_, rm', next', hrecord, rfl⟩ := after_analyzeLoop.mp h
    obtain ⟨_, _, logTotLen, _, _, _, _, hlen, _, _, _, rfl⟩ := analyzeRecord_eq_some hrecord
    rw [hlen, int32, BitVec.ofInt_toInt, BitVec.ofInt_add, BitVec.ofInt_toInt, BitVec.ofInt_natCast,
      BitVec.ofNat_toNat, BitVec.setWidth_eq, add_sub_cancel_left]

theorem byLength_readLoop (lsn : BitVec 32) : (readLoop lsn).ByLength where
  after_eq := fun _ _ _ _ _ => rfl
  length := by
    intro buffer bytesRead _ place next h
    unfold LogLoop.after readLoop at h
    dsimp only at h
    split at h
    · split at h
      · rename_i hturn
        split at hturn
        · exact absurd hturn nofun
        · split at hturn
          · rename_i currentLsn logTotLen _ hlen
            split at hturn
            · exact absurd hturn nofun
            · split at hturn
              · exact absurd hturn nofun
              · cases hturn
                obtain rfl := Option.some.inj h
                rw [hlen, add_sub_cancel_left]
          · exact absurd hturn nofun
      · exact absurd h nofun
      · exact absurd h nofun
    · exact absurd h nofun

/-- The tables that the analysis finds come out of its loop. -/
theorem analyzeBuffer_reaches {logFile : Bytes} {bytesRead fuel : ℕ} (offset reads : ℕ)
    (h : analyzeBuffer buffer bytesRead fuel place.toInt rm = some rm') :
    Reaches (analyzeLoop.step logFile) (.within buffer bytesRead offset reads place rm)
      (.reading buffer (offset + bytesRead) reads rm') := by
  induction fuel generalizing place rm with
  | zero =>
    unfold analyzeBuffer at h
    split at h
    · exact absurd h (by simp)
    · rename_i hend
      obtain rfl := Option.some.inj h
      exact .single (by rw [LogLoop.step, if_neg hend]; rfl)
  | succ fuel ih =>
    unfold analyzeBuffer at h
    split at h
    · rename_i hlt
      obtain ⟨⟨rm₁, next⟩, hrecord, hrest⟩ := Option.bind_eq_some_iff.mp h
      obtain ⟨_, _, _, _, _, _, _, _, _, _, _, hnext⟩ := analyzeRecord_eq_some hrecord
      have hint : (BitVec.ofInt 32 next).toInt = next := by
        rw [hnext, int32, BitVec.ofInt_toInt]
      have hstep : analyzeLoop.step logFile (.within buffer bytesRead offset reads place rm) =
          some (.within buffer bytesRead offset reads (.ofInt 32 next) rm₁) := by
        simp only [LogLoop.step, analyzeLoop, if_pos hlt, hrecord]
      exact .head hstep (ih (hint.symm ▸ hrest))
    · rename_i hend
      obtain rfl := Option.some.inj h
      exact .single (by rw [LogLoop.step, if_neg hend]; rfl)

theorem analyzeFrom_reaches {logFile : Bytes} {fuel offset : ℕ} (reads : ℕ)
    (h : analyzeFrom logFile fuel buffer offset rm = some rm') :
    Reaches (analyzeLoop.step logFile) (.reading buffer offset reads rm) (.ended (some rm')) := by
  induction fuel generalizing buffer offset reads rm with
  | zero => exact absurd h nofun
  | succ fuel ih =>
    unfold analyzeFrom at h
    split at h
    · rename_i hread
      obtain rfl := Option.some.inj h
      exact .single (by rw [LogLoop.step, hread]; rfl)
    · rename_i hread
      obtain rfl := Option.some.inj h
      exact .single (by rw [LogLoop.step, hread]; rfl)
    · rename_i bytes hne hread
      obtain ⟨rm₁, hbuffer, hrest⟩ := Option.bind_eq_some_iff.mp h
      have hstep : analyzeLoop.step logFile (.reading buffer offset reads rm) =
          some (.within (bytes ++ buffer.drop bytes.length) bytes.length offset (reads + 1) 0 rm) := by
        cases bytes with
        | nil => exact absurd rfl hne
        | cons b bytes =>
          rw [LogLoop.step, hread]
          rfl
      exact .head hstep ((analyzeBuffer_reaches offset (reads + 1) hbuffer).trans (ih (reads + 1) hrest))

theorem analyze_yields {stale : Vector UInt8 logBufferSize} {logFile : Bytes} (h : analyze stale logFile = some rm) :
    analyzeLoop.Yields stale logFile clear (some rm) :=
  analyzeFrom_reaches 0 h

/-- On any bytes, each of the two loops ends just when it never goes over records whose lengths, in a row, add up to a
multiple of 2^32. A read that leaves the buffer ends the loop. -/
theorem loops_end_iff (stale : Vector UInt8 logBufferSize) (logFile : Bytes) (lsn : BitVec 32) :
    (analyzeLoop.Ends stale logFile clear ↔ analyzeLoop.NoRoundTrip stale logFile clear) ∧
      ((readLoop lsn).Ends stale logFile () ↔ (readLoop lsn).NoRoundTrip stale logFile ()) :=
  ⟨LogLoop.ends_iff byLength_analyzeLoop stale, LogLoop.ends_iff (byLength_readLoop lsn) stale⟩

/-! ### Logs on which the loops do not end -/

theorem bytesAt_front (mid rest : Bytes) {k size : ℕ} (hsize : k + size ≤ mid.length) :
    bytesAt (mid ++ rest) k size = some ((mid ++ rest).drop k) := by
  rw [bytesAt, if_pos, Int.toNat_natCast]
  rw [Int.toNat_natCast, List.length_append]
  omega

/-- A block of zeros is an UPDATE record of length 0. -/
theorem analyzeRecord_zeros (rest : Bytes) : ∃ rm, analyzeRecord (List.replicate 64 0 ++ rest) 0 clear = some (rm, 0) := by
  have hread : ∀ k size : ℕ, k ≤ 60 → k + size ≤ 64 →
      ∃ bytes, bytesAt (List.replicate 64 0 ++ rest) k size = some bytes ∧ readWord bytes = 0 := by
    intro k size hk hsize
    refine ⟨_, bytesAt_front _ _ (by rwa [List.length_replicate]), ?_⟩
    obtain ⟨m, hm⟩ : ∃ m, 64 - k = 4 + m := ⟨60 - k, by omega⟩
    rw [List.drop_append_of_le_length (by rw [List.length_replicate]; omega), List.drop_replicate, hm, List.replicate_add,
      List.append_assoc]
    exact readWord_wordBytes_append 0 _
  have hword : ∀ k : ℕ, k ≤ 60 → wordAt (List.replicate 64 0 ++ rest) k = some 0 := by
    intro k hk
    obtain ⟨bytes, hbytes, hzero⟩ := hread k 4 hk (by omega)
    rw [wordAt, hbytes, Option.map_some, hzero]
  obtain ⟨txnId, htid, -⟩ := hread 12 8 (by decide) (by decide)
  obtain ⟨rid, hrid, -⟩ := hread 32 8 (by decide) (by decide)
  have hskip : ∀ k : ℕ, k ≤ 60 → skipValue (List.replicate 64 0 ++ rest) k = some (k + 4 : ℤ) := by
    intro k hk
    have hzero : BitVec.toInt (0 : BitVec 32) = 0 := rfl
    rw [skipValue, hword k hk, Option.map_some, hzero]
    exact congrArg some (int32_eq (by omega) (by omega))
  have htype : wordAt (List.replicate 64 0 ++ rest) (0 + offsetLogType) = some 0 := hword 0 (by decide)
  have hlsn : wordAt (List.replicate 64 0 ++ rest) (0 + offsetLsn) = some 0 := hword 4 (by decide)
  have hlen : wordAt (List.replicate 64 0 ++ rest) (0 + offsetLogTotLen) = some 0 := hword 8 (by decide)
  have htxn : bytesAt (List.replicate 64 0 ++ rest) (0 + offsetLogTid) 8 = some txnId := htid
  have hold : skipValue (List.replicate 64 0 ++ rest) (0 + offsetLogData) = some 28 := hskip 24 (by decide)
  have hnew : skipValue (List.replicate 64 0 ++ rest) 28 = some 32 := hskip 28 (by decide)
  have hpage : pageNoAt (List.replicate 64 0 ++ rest) 32 = some (readWord rid) :=
    congrArg (Option.map readWord) hrid
  have hof : LogType.ofWord 0 = some .update := by decide
  refine ⟨clear.pushRedo (readWord rid) 0, ?_⟩
  simp only [analyzeRecord, htype, hlsn, hlen, htxn, hof, analyzeType, hold, hnew, hpage, Option.map_some,
    Option.bind_eq_bind, Option.bind_some]
  rfl

/-- The header of a record that lies in the buffer. -/
theorem header_at (pre rest : Bytes) (r : LogRecord) :
    wordAt (pre ++ (r.serialize ++ rest)) (pre.length + offsetLogType) = some r.body.logType.toWord ∧
      wordAt (pre ++ (r.serialize ++ rest)) (pre.length + offsetLsn) = some r.lsn ∧
      wordAt (pre ++ (r.serialize ++ rest)) (pre.length + offsetLogTotLen) = some r.logTotLen ∧
      (bytesAt (pre ++ (r.serialize ++ rest)) (pre.length + offsetLogTid) 8).map readDword = some r.logTid ∧
      wordAt (pre ++ (r.serialize ++ rest)) (pre.length + offsetPrevLsn) = some r.prevLsn := by
  obtain ⟨htype, hlsn, htotLen, htid, hprevLsn, -⟩ := r.header_fields rest
  have hlong : 24 ≤ (r.serialize ++ rest).length := by
    rw [LogRecord.serialize, List.length_append, List.length_append, r.length_serializeHeader, logHeaderSize, offsetLogData]
    omega
  have hread : ∀ {k size : ℕ}, k + size ≤ 24 →
      bytesAt (pre ++ (r.serialize ++ rest)) (pre.length + k) size = some ((r.serialize ++ rest).drop k) := by
    intro k size hk
    exact bytesAt_append (Int.natCast_add _ _).symm (Nat.le_trans hk hlong)
  refine ⟨?_, ?_, ?_, ?_, ?_⟩
  · rw [wordAt, hread (by decide), Option.map_some, htype]
  · rw [wordAt, hread (by decide), Option.map_some, hlsn]
  · rw [wordAt, hread (by decide), Option.map_some, htotLen]
  · rw [hread (by decide), Option.map_some, htid]
  · rw [wordAt, hread (by decide), Option.map_some, hprevLsn]

/-- A BEGIN record, and one whose length leads back to the first. -/
def leading : LogRecord := (LogRecord.construct 0 .begin).withLsn 0

def backwards : LogRecord := { LogRecord.construct 0 .begin with lsn := 1, logTotLen := -24 }

theorem turn_readLoop {bytesRead : ℕ} (lsn : BitVec 32) {place currentLsn logTotLen : BitVec 32}
    (hheader : place.toInt + logHeaderSize ≤ bytesRead) (hlsn : wordAt buffer (place.toInt + offsetLsn) = some currentLsn)
    (hlen : wordAt buffer (place.toInt + offsetLogTotLen) = some logTotLen) :
    (readLoop lsn).turn buffer bytesRead place () =
      if currentLsn = lsn then .done (createLogRecord buffer place.toInt)
      else if logTotLen = 0 ∨ bytesRead < (place + logTotLen).toNat then .leave
      else .next (place + logTotLen) () := by
  simp only [readLoop, hlsn, hlen]
  rw [if_neg (Int.not_lt.mpr hheader)]

theorem after_backwards (rest : Bytes) :
    (readLoop 5).after (leading.serialize ++ (backwards.serialize ++ rest)) 48 () 0 = some 24 ∧
      (readLoop 5).after (leading.serialize ++ (backwards.serialize ++ rest)) 48 () 24 = some 0 := by
  obtain ⟨-, hlsn, hlen, -⟩ := header_at [] (backwards.serialize ++ rest) leading
  obtain ⟨-, hlsn', hlen', -⟩ := header_at leading.serialize rest backwards
  constructor
  · have hheader : BitVec.toInt (0 : BitVec 32) + logHeaderSize ≤ (48 : ℕ) := by decide
    have hturn := turn_readLoop 5 hheader hlsn hlen
    rw [List.nil_append] at hturn
    rw [LogLoop.after, if_pos (by decide), hturn]
    rfl
  · have hheader : BitVec.toInt (24 : BitVec 32) + logHeaderSize ≤ (48 : ℕ) := by decide
    have hturn := turn_readLoop 5 hheader hlsn' hlen'
    rw [LogLoop.after, if_pos (by decide), hturn]
    rfl

theorem not_loops_end : (∀ stale, ¬analyzeLoop.Ends stale (List.replicate 64 0) clear) ∧
    ∀ stale, ¬(readLoop 5).Ends stale (leading.serialize ++ backwards.serialize) () := by
  constructor
  · intro stale hends
    obtain ⟨rm, hrecord⟩ := analyzeRecord_zeros (stale.toList.drop 64)
    have hstep : analyzeLoop.step (List.replicate 64 0) (start stale clear) =
        some (.within (List.replicate 64 0 ++ stale.toList.drop 64) 64 0 1 0 clear) := rfl
    have hafter : analyzeLoop.after (List.replicate 64 0 ++ stale.toList.drop 64) 64 clear 0 = some 0 :=
      after_analyzeLoop.mpr ⟨by decide, rm, 0, hrecord, rfl⟩
    have hlength := byLength_analyzeLoop.length hafter
    exact (ends_iff byLength_analyzeLoop stale).mp hends _ _ _ _ _ (.single hstep) [] [0] 0 0 (.nil 0)
      (.cons hafter hlength (.nil 0)) (List.cons_ne_nil _ _) rfl
  · intro stale hends
    obtain ⟨hfirst, hsecond⟩ := after_backwards (stale.toList.drop 48)
    have hstep : (readLoop 5).step (leading.serialize ++ backwards.serialize) (start stale ()) =
        some (.within (leading.serialize ++ (backwards.serialize ++ stale.toList.drop 48)) 48 0 1 0 ()) := rfl
    have hlength := (byLength_readLoop 5).length hfirst
    have hlength' := (byLength_readLoop 5).length hsecond
    exact (ends_iff (byLength_readLoop 5) stale).mp hends _ _ _ _ _ (.single hstep) [] [24, -24] 0 0 (.nil 0)
      (.cons hfirst hlength (.cons hsecond hlength' (.nil 0))) (List.cons_ne_nil _ _) rfl

end RecoveryManager
end Rmdb
