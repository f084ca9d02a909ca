import Mathlib.Algebra.Order.Ring.Int
import Mathlib.Algebra.Order.Ring.Nat
import Mathlib.Logic.Function.Basic
import Mathlib.Tactic.Common

/-! Types shared by the storage engine: record identifiers, column types and the bytes
of a field. `char*` buffers are lists of bytes. -/
namespace Rmdb

abbrev Bytes := List UInt8

/-- A record identifier; `(-1, -1)` is what a failed insertion returns. -/
structure Rid where
  pageNo : ℤ
  slotNo : ℤ
deriving DecidableEq, Repr, Inhabited

inductive ColType where
  | int
  | float
  | string
deriving DecidableEq, Repr

def pageSize : ℕ := 4096

/-- The four little-endian bytes of a machine word. -/
def wordBytes (w : BitVec 32) : Bytes :=
  [.ofNat (w.toNat % 256), .ofNat (w.toNat / 256 % 256),
    .ofNat (w.toNat / 65536 % 256), .ofNat (w.toNat / 16777216 % 256)]

/-- The machine word a pointer cast reads from the first four bytes; short buffers are
read as if padded with zeros. -/
def readWord (b : Bytes) : BitVec 32 :=
  .ofNat 32 ((b.getD 0 0).toNat + 256 * (b.getD 1 0).toNat +
    65536 * (b.getD 2 0).toNat + 16777216 * (b.getD 3 0).toNat)

theorem readWord_append {a : Bytes} (b : Bytes) (ha : 4 ≤ a.length) : readWord (a ++ b) = readWord a := by
  have hget : ∀ i < 4, (a ++ b).getD i 0 = a.getD i 0 := by
    intro i hi
    simp only [List.getD_eq_getElem?_getD, List.getElem?_append_left (by omega : i < a.length)]
  unfold readWord
  rw [hget 0 (by omega), hget 1 (by omega), hget 2 (by omega), hget 3 (by omega)]

theorem readWord_wordBytes (w : BitVec 32) : readWord (wordBytes w) = w := by
  have hw := w.isLt
  apply BitVec.eq_of_toNat_eq
  simp only [readWord, wordBytes, List.getD_cons_zero, List.getD_cons_succ, UInt8.toNat_ofNat',
    BitVec.toNat_ofNat]
  omega

@[simp] theorem length_wordBytes (w : BitVec 32) : (wordBytes w).length = 4 := rfl

theorem readWord_wordBytes_append (w : BitVec 32) (b : Bytes) : readWord (wordBytes w ++ b) = w := by
  rw [readWord_append b (Nat.le_of_eq (length_wordBytes w).symm), readWord_wordBytes]

theorem wordBytes_readWord (b : Bytes) (hb : b.length = 4) : wordBytes (readWord b) = b := by
  obtain ⟨b₀, b₁, b₂, b₃, rfl⟩ : ∃ b₀ b₁ b₂ b₃, b = [b₀, b₁, b₂, b₃] := by
    match b, hb with
    | [b₀, b₁, b₂, b₃], _ => exact ⟨b₀, b₁, b₂, b₃, rfl⟩
  have h₀ := b₀.toNat_lt
  have h₁ := b₁.toNat_lt
  have h₂ := b₂.toNat_lt
  have h₃ := b₃.toNat_lt
  have hn : (readWord [b₀, b₁, b₂, b₃]).toNat =
      b₀.toNat + 256 * b₁.toNat + 65536 * b₂.toNat + 16777216 * b₃.toNat := by
    simp only [readWord, List.getD_cons_zero, List.getD_cons_succ, BitVec.toNat_ofNat]
    omega
  simp only [wordBytes, hn, List.cons.injEq, and_true, ← UInt8.toNat_inj, UInt8.toNat_ofNat']
  refine ⟨?_, ?_, ?_, ?_⟩ <;> omega

/-- The value of an `int` that a result is stored in. -/
def int32 (z : ℤ) : ℤ := (BitVec.ofInt 32 z).toInt

theorem int32_eq {z : ℤ} (hnonneg : 0 ≤ z) (hlt : z < 2 ^ 31) : int32 z = z := by
  rw [int32, BitVec.toInt_ofInt]
  apply Int.bmod_eq_of_le <;> omega

/-- The eight little-endian bytes of a 64-bit word. -/
def dwordBytes (w : BitVec 64) : Bytes :=
  wordBytes (w.extractLsb' 0 32) ++ wordBytes (w.extractLsb' 32 32)

def readDword (b : Bytes) : BitVec 64 := readWord (b.drop 4) ++ readWord b

@[simp] theorem length_dwordBytes (w : BitVec 64) : (dwordBytes w).length = 8 := rfl

theorem readDword_dwordBytes_append (w : BitVec 64) (b : Bytes) : readDword (dwordBytes w ++ b) = w := by
  unfold readDword dwordBytes
  rw [List.append_assoc, List.drop_left' (length_wordBytes _), readWord_wordBytes_append,
    readWord_wordBytes_append]
  apply BitVec.eq_of_getLsbD_eq
  intro i hi
  simp only [BitVec.getLsbD_append, BitVec.getLsbD_extractLsb']
  by_cases hlow : i < 32
  · simp [hlow]
  · have hhigh : i - 32 < 32 := by omega
    have hsum : 32 + (i - 32) = i := by omega
    simp [hlow, hhigh, hsum]

end Rmdb
