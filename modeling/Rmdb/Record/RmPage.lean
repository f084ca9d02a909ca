import Rmdb.Common.Defs
import Rmdb.Lib.Sparse

/-! A page of a record file, byte by byte: the page header, the bitmap and the slots behind it. -/
namespace Rmdb

namespace Bitmap

def getBit (pos : ℕ) : UInt8 := ⟨0x80#8 >>> (pos % 8)⟩

def isSet (bm : Bytes) (pos : ℕ) : Bool := bm.getD (pos / 8) 0 &&& getBit pos != 0

def set (bm : Bytes) (pos : ℕ) : Bytes := bm.modify (pos / 8) (· ||| getBit pos)

def reset (bm : Bytes) (pos : ℕ) : Bytes := bm.modify (pos / 8) (· &&& ~~~getBit pos)

def init (size : ℕ) : Bytes := List.replicate size 0

/-- The first position behind `start` with this value, or `size`. -/
def nextBit (value : Bool) (bm : Bytes) (size : ℕ) (start : ℤ) : ℕ :=
  if start < -1 ∨ size ≤ start then size
  else ((List.range size).find? fun i : ℕ => decide (start < i) && isSet bm i == value).getD size

def firstBit (bit : Bool) (bm : Bytes) (maxN : ℕ) : ℕ := nextBit bit bm maxN (-1)

variable {bm : Bytes} {pos i size : ℕ}

theorem getLsbD_getBit (pos j : ℕ) : (getBit pos).toBitVec.getLsbD j = decide (j + pos % 8 = 7) := by
  have hpos : pos % 8 < 8 := Nat.mod_lt _ (by omega)
  simp only [getBit, BitVec.getLsbD_ushiftRight]
  generalize pos % 8 = k at hpos
  by_cases hlt : k + j < 8
  · have hall : ∀ m < 8, (0x80#8).getLsbD m = decide (m = 7) := by decide
    rw [hall _ hlt, Nat.add_comm]
  · rw [BitVec.getLsbD_of_ge _ _ (by omega)]
    symm
    rw [decide_eq_false_iff_not]
    omega

/-- The bits of a byte are numbered from the highest down. -/
theorem isSet_iff (bm : Bytes) (pos : ℕ) :
    isSet bm pos = (bm.getD (pos / 8) 0).toBitVec.getLsbD (7 - pos % 8) := by
  have hpos : pos % 8 < 8 := Nat.mod_lt _ (by omega)
  rw [Bool.eq_iff_iff]
  unfold isSet
  rw [bne_iff_ne, ne_eq, ← UInt8.toBitVec_inj]
  constructor
  · intro hne
    by_contra hclear
    apply hne
    apply BitVec.eq_of_getLsbD_eq
    intro j hj
    simp only [UInt8.toBitVec_and, BitVec.getLsbD_and, getLsbD_getBit, UInt8.toBitVec_zero, BitVec.getLsbD_zero,
      Bool.and_eq_false_iff, decide_eq_false_iff_not]
    by_cases heq : j + pos % 8 = 7
    · left
      have hj7 : j = 7 - pos % 8 := by omega
      rw [hj7]
      exact Bool.eq_false_iff.mpr hclear
    · right
      exact heq
  · intro hset hzero
    have hbit := congrArg (fun b : BitVec 8 => b.getLsbD (7 - pos % 8)) hzero
    simp only [UInt8.toBitVec_and, BitVec.getLsbD_and, getLsbD_getBit, hset, UInt8.toBitVec_zero,
      BitVec.getLsbD_zero, Bool.true_and, decide_eq_false_iff_not] at hbit
    omega

@[simp] theorem length_set (bm : Bytes) (pos : ℕ) : (set bm pos).length = bm.length := List.length_modify ..

@[simp] theorem length_reset (bm : Bytes) (pos : ℕ) : (reset bm pos).length = bm.length :=
  List.length_modify ..

theorem getD_modify {f : UInt8 → UInt8} {j : ℕ} (h : pos / 8 < bm.length) :
    (bm.modify (pos / 8) f).getD j 0 = if pos / 8 = j then f (bm.getD j 0) else bm.getD j 0 := by
  rw [List.getD_eq_getElem?_getD, List.getElem?_modify, List.getD_eq_getElem?_getD]
  split
  · rename_i heq
    rw [← heq, List.getElem?_eq_getElem h]
    rfl
  · simp only [Option.map_eq_map, Option.map_id']

/-- Positions of one byte differ in their bits. -/
theorem eq_of_byte_of_bit (hbyte : pos / 8 = i / 8) (hbit : 7 - i % 8 + pos % 8 = 7) : i = pos := by
  omega

theorem isSet_set (h : pos < 8 * bm.length) : isSet (set bm pos) i = (decide (i = pos) || isSet bm i) := by
  rw [isSet_iff, isSet_iff, set, getD_modify (by omega)]
  split
  · rename_i hbyte
    rw [UInt8.toBitVec_or, BitVec.getLsbD_or, getLsbD_getBit, Bool.or_comm]
    congr 1
    rw [decide_eq_decide]
    constructor
    · intro hbit
      exact eq_of_byte_of_bit hbyte hbit
    · rintro rfl
      omega
  · rename_i hbyte
    have hne : i ≠ pos := fun heq => hbyte (heq ▸ rfl)
    rw [decide_eq_false hne, Bool.false_or]

theorem isSet_reset (h : pos < 8 * bm.length) :
    isSet (reset bm pos) i = (!decide (i = pos) && isSet bm i) := by
  rw [isSet_iff, isSet_iff, reset, getD_modify (by omega)]
  split
  · rename_i hbyte
    rw [UInt8.toBitVec_and, BitVec.getLsbD_and, UInt8.toBitVec_not, BitVec.getLsbD_not, getLsbD_getBit,
      Bool.and_comm]
    congr 1
    have hi : 7 - i % 8 < 8 := by omega
    rw [decide_eq_true hi, Bool.true_and, Bool.not_inj_iff, decide_eq_decide]
    constructor
    · intro hbit
      exact eq_of_byte_of_bit hbyte hbit
    · rintro rfl
      omega
  · rename_i hbyte
    have hne : i ≠ pos := fun heq => hbyte (heq ▸ rfl)
    rw [decide_eq_false hne, Bool.not_false, Bool.true_and]

theorem isSet_init (size pos : ℕ) : isSet (init size) pos = false := by
  have hbyte : (init size).getD (pos / 8) 0 = 0 := by
    rw [init, List.getD_eq_getElem?_getD, List.getElem?_replicate]
    split <;> rfl
  rw [isSet_iff, hbyte, UInt8.toBitVec_zero, BitVec.getLsbD_zero]

theorem nextBit_eq {value : Bool} {start : ℤ} (h : -1 ≤ start) :
    nextBit value bm size start =
      ((List.range size).find? fun i : ℕ => decide (start < i) && isSet bm i == value).getD size := by
  unfold nextBit
  split
  · rename_i hout
    have hnone : (List.range size).find? (fun i : ℕ => decide (start < i) && isSet bm i == value) = none := by
      rw [List.find?_eq_none]
      intro i hi
      have hlt := List.mem_range.mp hi
      have hbehind : ¬start < i := by omega
      rw [decide_eq_false hbehind, Bool.false_and]
      exact Bool.false_ne_true
    rw [hnone, Option.getD_none]
  · rfl

/-- Where there is a clear bit, the first one is found. -/
theorem firstBit_false (hfree : ∃ i < size, isSet bm i = false) :
    firstBit false bm size < size ∧ isSet bm (firstBit false bm size) = false := by
  obtain ⟨i, hi, hclear⟩ := hfree
  rw [firstBit, nextBit_eq (by omega)]
  cases hfind : (List.range size).find? fun i : ℕ => decide ((-1 : ℤ) < i) && isSet bm i == false with
  | none =>
    have hnot := List.find?_eq_none.mp hfind i (List.mem_range.mpr hi)
    have hbehind : (-1 : ℤ) < i := by omega
    rw [hclear, decide_eq_true hbehind] at hnot
    exact absurd rfl hnot
  | some j =>
    have hj := List.find?_some hfind
    rw [Bool.and_eq_true, beq_iff_eq] at hj
    exact ⟨List.mem_range.mp (List.mem_of_find?_eq_some hfind), hj.2⟩

/-- A place within the size is found only where there is a clear bit. -/
theorem firstBit_false_lt_iff : firstBit false bm size < size ↔ ∃ i < size, isSet bm i = false := by
  constructor
  · intro hlt
    by_contra hnone
    have hfind : (List.range size).find? (fun i : ℕ => decide ((-1 : ℤ) < i) && isSet bm i == false) = none := by
      rw [List.find?_eq_none]
      intro i hi hclear
      rw [Bool.and_eq_true, beq_iff_eq] at hclear
      exact hnone ⟨i, List.mem_range.mp hi, hclear.2⟩
    rw [firstBit, nextBit_eq (by omega), hfind, Option.getD_none] at hlt
    exact Nat.lt_irrefl _ hlt
  · exact fun hfree => (firstBit_false hfree).1

end Bitmap

/-- The file header, five `int`s. -/
structure RmFileHdr where
  recordSize : ℕ
  numPages : ℤ
  numRecordsPerPage : ℕ
  firstFreePageNo : ℤ
  bitmapSize : ℕ
deriving DecidableEq, Repr

namespace RmFileHdr

def encode (hdr : RmFileHdr) : Bytes :=
  wordBytes (.ofInt 32 hdr.recordSize) ++ (wordBytes (.ofInt 32 hdr.numPages) ++
    (wordBytes (.ofInt 32 hdr.numRecordsPerPage) ++ (wordBytes (.ofInt 32 hdr.firstFreePageNo) ++
      wordBytes (.ofInt 32 hdr.bitmapSize))))

def decode (b : Bytes) : RmFileHdr where
  recordSize := (readWord b).toInt.toNat
  numPages := (readWord (b.drop 4)).toInt
  numRecordsPerPage := (readWord (b.drop 8)).toInt.toNat
  firstFreePageNo := (readWord (b.drop 12)).toInt
  bitmapSize := (readWord (b.drop 16)).toInt.toNat

/-- The slots that the header counts have their bits, and lie in the page. -/
structure Fits (hdr : RmFileHdr) : Prop where
  pos : 0 < hdr.numRecordsPerPage
  bits : hdr.numRecordsPerPage ≤ 8 * hdr.bitmapSize
  slots : 12 + hdr.bitmapSize + hdr.numRecordsPerPage * hdr.recordSize ≤ pageSize
  recordSize : hdr.recordSize ≤ pageSize

end RmFileHdr

namespace RmPage

/-- `page_hdr->num_records`, behind the page's LSN and the number of the next free page. -/
def numRecords (page : Bytes) : ℤ := (readWord (Sparse.window 0 page 8 4)).toInt

def setNextFreePageNo (page : Bytes) (pageNo : ℤ) : Bytes :=
  Sparse.overwrite 0 page 4 (wordBytes (.ofInt 32 pageNo))

def setNumRecords (page : Bytes) (num : ℤ) : Bytes := Sparse.overwrite 0 page 8 (wordBytes (.ofInt 32 num))

section slots
variable (hdr : RmFileHdr) (page : Bytes)

def bitmap : Bytes := Sparse.window 0 page 12 hdr.bitmapSize

def setBitmap (bm : Bytes) : Bytes := Sparse.overwrite 0 page 12 bm

def slotPos (slotNo : ℕ) : ℕ := 12 + hdr.bitmapSize + slotNo * hdr.recordSize

def slot (slotNo : ℕ) : Bytes := Sparse.window 0 page (slotPos hdr slotNo) hdr.recordSize

def setSlot (slotNo : ℕ) (bytes : Bytes) : Bytes := Sparse.overwrite 0 page (slotPos hdr slotNo) bytes

/-- What a slot holds, if it is in use. -/
def content (slotNo : ℕ) : Option Bytes :=
  if Bitmap.isSet (bitmap hdr page) slotNo then some (slot hdr page slotNo) else none

/-- Put a record into a slot. -/
def fill (slotNo : ℕ) (buf : Bytes) : Bytes :=
  let page := setSlot hdr page slotNo buf
  let page := setNumRecords page (numRecords page + 1)
  setBitmap page (Bitmap.set (bitmap hdr page) slotNo)

/-- Take the record out of a slot. -/
def clear (slotNo : ℕ) : Bytes :=
  let page := setSlot hdr page slotNo (List.replicate hdr.recordSize 0)
  let page := setBitmap page (Bitmap.reset (bitmap hdr page) slotNo)
  setNumRecords page (numRecords page - 1)

/-- The page header says how many bits of the page are set. -/
structure Counted : Prop where
  length : page.length = pageSize
  numRecords : numRecords page = (List.range hdr.numRecordsPerPage).countP (Bitmap.isSet (bitmap hdr page))

end slots

section lemmas
variable {hdr : RmFileHdr} {page bm bytes : Bytes} {num pageNo : ℤ} {slotNo i : ℕ}

theorem slotPos_le (hfits : hdr.Fits) (hslot : slotNo < hdr.numRecordsPerPage) :
    slotPos hdr slotNo + hdr.recordSize ≤ pageSize := by
  have hmul : (slotNo + 1) * hdr.recordSize ≤ hdr.numRecordsPerPage * hdr.recordSize :=
    Nat.mul_le_mul_right _ hslot
  have hslots := hfits.slots
  rw [Nat.succ_mul] at hmul
  unfold slotPos
  omega

theorem slotPos_disjoint (hne : i ≠ slotNo) : slotPos hdr i + hdr.recordSize ≤ slotPos hdr slotNo ∨
    slotPos hdr slotNo + hdr.recordSize ≤ slotPos hdr i := by
  unfold slotPos
  rcases Nat.lt_or_gt_of_ne hne with hlt | hgt
  · have hmul : (i + 1) * hdr.recordSize ≤ slotNo * hdr.recordSize := Nat.mul_le_mul_right _ hlt
    rw [Nat.succ_mul] at hmul
    omega
  · have hmul : (slotNo + 1) * hdr.recordSize ≤ i * hdr.recordSize := Nat.mul_le_mul_right _ hgt
    rw [Nat.succ_mul] at hmul
    omega

/-! Each field of a page after each of the four writes. -/

theorem length_setNextFreePageNo (hlen : page.length = pageSize) :
    (setNextFreePageNo page pageNo).length = pageSize := by
  rw [setNextFreePageNo, Sparse.length_overwrite, hlen]
  rw [hlen, length_wordBytes, pageSize]
  omega

theorem length_setNumRecords (hlen : page.length = pageSize) : (setNumRecords page num).length = pageSize := by
  rw [setNumRecords, Sparse.length_overwrite, hlen]
  rw [hlen, length_wordBytes, pageSize]
  omega

theorem length_setBitmap (hfits : hdr.Fits) (hbm : bm.length = hdr.bitmapSize) (hlen : page.length = pageSize) :
    (setBitmap page bm).length = pageSize := by
  have hslots := hfits.slots
  rw [setBitmap, Sparse.length_overwrite, hlen]
  omega

theorem length_setSlot (hfits : hdr.Fits) (hslot : slotNo < hdr.numRecordsPerPage)
    (hbytes : bytes.length = hdr.recordSize) (hlen : page.length = pageSize) :
    (setSlot hdr page slotNo bytes).length = pageSize := by
  have hle := slotPos_le hfits hslot
  rw [setSlot, Sparse.length_overwrite, hlen]
  omega

@[simp] theorem length_bitmap (hdr : RmFileHdr) (page : Bytes) : (bitmap hdr page).length = hdr.bitmapSize :=
  Sparse.length_window ..

@[simp] theorem numRecords_setNextFreePageNo : numRecords (setNextFreePageNo page pageNo) = numRecords page := by
  rw [numRecords, setNextFreePageNo, Sparse.window_overwrite_disjoint (by rw [length_wordBytes]; omega), numRecords]

@[simp] theorem bitmap_setNextFreePageNo : bitmap hdr (setNextFreePageNo page pageNo) = bitmap hdr page :=
  Sparse.window_overwrite_disjoint (by rw [length_wordBytes]; omega)

@[simp] theorem slot_setNextFreePageNo : slot hdr (setNextFreePageNo page pageNo) i = slot hdr page i :=
  Sparse.window_overwrite_disjoint (by rw [length_wordBytes, slotPos]; omega)

theorem numRecords_setNumRecords (hnonneg : 0 ≤ num) (hlt : num < 2 ^ 31) :
    numRecords (setNumRecords page num) = num := by
  have hword := Sparse.window_overwrite 0 page 8 (wordBytes (.ofInt 32 num))
  rw [length_wordBytes] at hword
  rw [numRecords, setNumRecords, hword, readWord_wordBytes]
  exact int32_eq hnonneg hlt

@[simp] theorem bitmap_setNumRecords : bitmap hdr (setNumRecords page num) = bitmap hdr page :=
  Sparse.window_overwrite_disjoint (by rw [length_wordBytes]; omega)

@[simp] theorem slot_setNumRecords : slot hdr (setNumRecords page num) i = slot hdr page i :=
  Sparse.window_overwrite_disjoint (by rw [length_wordBytes, slotPos]; omega)

@[simp] theorem numRecords_setBitmap : numRecords (setBitmap page bm) = numRecords page := by
  rw [numRecords, setBitmap, Sparse.window_overwrite_disjoint (by omega), numRecords]

theorem bitmap_setBitmap (hbm : bm.length = hdr.bitmapSize) : bitmap hdr (setBitmap page bm) = bm := by
  rw [bitmap, setBitmap, ← hbm, Sparse.window_overwrite]

theorem slot_setBitmap (hbm : bm.length = hdr.bitmapSize) : slot hdr (setBitmap page bm) i = slot hdr page i :=
  Sparse.window_overwrite_disjoint (by rw [slotPos]; omega)

@[simp] theorem numRecords_setSlot : numRecords (setSlot hdr page slotNo bytes) = numRecords page := by
  rw [numRecords, setSlot, Sparse.window_overwrite_disjoint (by rw [slotPos]; omega), numRecords]

@[simp] theorem bitmap_setSlot : bitmap hdr (setSlot hdr page slotNo bytes) = bitmap hdr page :=
  Sparse.window_overwrite_disjoint (by rw [slotPos]; omega)

theorem slot_setSlot (hbytes : bytes.length = hdr.recordSize) :
    slot hdr (setSlot hdr page slotNo bytes) i = if i = slotNo then bytes else slot hdr page i := by
  split
  · rename_i heq
    rw [heq, slot, setSlot, ← hbytes, Sparse.window_overwrite]
  · rename_i hne
    apply Sparse.window_overwrite_disjoint
    rw [hbytes]
    exact slotPos_disjoint hne

/-- One more of the counted numbers. -/
theorem countP_range_insert {used : ℕ → Bool} {n : ℕ} (hi : i < n) (hfree : used i = false) :
    (List.range n).countP (fun j => decide (j = i) || used j) = (List.range n).countP used + 1 := by
  have hperm := List.perm_cons_erase (List.mem_range.mpr hi)
  have hothers : ∀ j ∈ (List.range n).erase i, (decide (j = i) || used j) = true ↔ used j = true := by
    intro j hj
    have hne : j ≠ i := (List.nodup_range.mem_erase_iff.mp hj).1
    rw [decide_eq_false hne, Bool.false_or]
  rw [hperm.countP_eq, hperm.countP_eq, List.countP_cons, List.countP_cons, List.countP_congr hothers, hfree]
  simp

theorem Counted.lt_two_pow (hcounted : Counted hdr page) (hfits : hdr.Fits) :
    0 ≤ RmPage.numRecords page ∧ RmPage.numRecords page ≤ hdr.numRecordsPerPage ∧ hdr.numRecordsPerPage < 2 ^ 16 := by
  have hle := List.countP_le_length (p := Bitmap.isSet (bitmap hdr page)) (l := List.range hdr.numRecordsPerPage)
  have hbits := hfits.bits
  have hslots := hfits.slots
  rw [List.length_range] at hle
  rw [hcounted.numRecords]
  unfold pageSize at hslots
  omega

theorem content_eq_none_iff : content hdr page i = none ↔ Bitmap.isSet (bitmap hdr page) i = false := by
  simp [content]

theorem bitmap_fill : bitmap hdr (fill hdr page slotNo bytes) = Bitmap.set (bitmap hdr page) slotNo := by
  rw [fill, bitmap_setBitmap, bitmap_setNumRecords, bitmap_setSlot]
  rw [Bitmap.length_set, length_bitmap]

theorem bitmap_clear : bitmap hdr (clear hdr page slotNo) = Bitmap.reset (bitmap hdr page) slotNo := by
  rw [clear, bitmap_setNumRecords, bitmap_setBitmap, bitmap_setSlot]
  rw [Bitmap.length_reset, length_bitmap]

theorem numRecords_fill (hfits : hdr.Fits) (hcounted : Counted hdr page) :
    numRecords (fill hdr page slotNo bytes) = numRecords page + 1 := by
  have hbound := hcounted.lt_two_pow hfits
  rw [fill, numRecords_setBitmap, numRecords_setSlot, numRecords_setNumRecords (by omega) (by omega)]

/-- The page is as before but for one slot. -/
structure Rewrote (hdr : RmFileHdr) (page page' : Bytes) (slotNo : ℕ) (held : Option Bytes) : Prop where
  counted : Counted hdr page'
  content : ∀ i, content hdr page' i = if i = slotNo then held else content hdr page i

section writes
variable (hfits : hdr.Fits) (hslot : slotNo < hdr.numRecordsPerPage)
include hfits hslot

theorem isSet_fill : Bitmap.isSet (bitmap hdr (fill hdr page slotNo bytes)) i =
    (decide (i = slotNo) || Bitmap.isSet (bitmap hdr page) i) := by
  have hbits := hfits.bits
  rw [bitmap_fill, Bitmap.isSet_set]
  rw [length_bitmap]
  omega

theorem isSet_clear : Bitmap.isSet (bitmap hdr (clear hdr page slotNo)) i =
    (!decide (i = slotNo) && Bitmap.isSet (bitmap hdr page) i) := by
  have hbits := hfits.bits
  rw [bitmap_clear, Bitmap.isSet_reset]
  rw [length_bitmap]
  omega

/-- The bits left, and the bit that was cleared. -/
theorem countP_clear (hused : Bitmap.isSet (bitmap hdr page) slotNo = true) :
    (List.range hdr.numRecordsPerPage).countP (Bitmap.isSet (bitmap hdr page)) =
      (List.range hdr.numRecordsPerPage).countP (Bitmap.isSet (bitmap hdr (clear hdr page slotNo))) + 1 := by
  have hcleared : Bitmap.isSet (bitmap hdr (clear hdr page slotNo)) slotNo = false := by
    rw [isSet_clear hfits hslot, decide_eq_true rfl, Bool.not_true, Bool.false_and]
  rw [← countP_range_insert hslot hcleared]
  apply List.countP_congr
  intro j _
  rw [isSet_clear hfits hslot]
  by_cases heq : j = slotNo
  · simp [heq, hused]
  · simp [heq]

variable (hcounted : Counted hdr page)
include hcounted

theorem fill_rewrote (hfree : content hdr page slotNo = none) (hbytes : bytes.length = hdr.recordSize) :
    Rewrote hdr page (fill hdr page slotNo bytes) slotNo (some bytes) := by
  have hclear := content_eq_none_iff.mp hfree
  constructor
  · constructor
    · apply length_setBitmap hfits (by rw [Bitmap.length_set, length_bitmap])
      apply length_setNumRecords
      exact length_setSlot hfits hslot hbytes hcounted.length
    · have hbits : Bitmap.isSet (bitmap hdr (fill hdr page slotNo bytes)) =
          fun j => decide (j = slotNo) || Bitmap.isSet (bitmap hdr page) j :=
        funext fun j => isSet_fill hfits hslot
      rw [numRecords_fill hfits hcounted, hcounted.numRecords, hbits, countP_range_insert hslot hclear]
      exact (Int.natCast_succ _).symm
  · intro i
    have hslots : slot hdr (fill hdr page slotNo bytes) i = if i = slotNo then bytes else slot hdr page i := by
      rw [fill, slot_setBitmap (by rw [Bitmap.length_set, length_bitmap]), slot_setNumRecords, slot_setSlot hbytes]
    rw [content, isSet_fill hfits hslot, hslots, content]
    by_cases heq : i = slotNo
    · simp [heq]
    · simp [heq]

theorem numRecords_clear (hused : Bitmap.isSet (bitmap hdr page) slotNo = true) :
    numRecords (clear hdr page slotNo) = numRecords page - 1 := by
  have hbound := hcounted.lt_two_pow hfits
  have hcount := hcounted.numRecords
  rw [countP_clear hfits hslot hused] at hcount
  rw [clear, numRecords_setNumRecords]
  · rw [numRecords_setBitmap, numRecords_setSlot]
  · rw [numRecords_setBitmap, numRecords_setSlot]
    omega
  · rw [numRecords_setBitmap, numRecords_setSlot]
    omega

theorem clear_rewrote (hused : Bitmap.isSet (bitmap hdr page) slotNo = true) :
    Rewrote hdr page (clear hdr page slotNo) slotNo none := by
  have hzeros : (List.replicate hdr.recordSize (0 : UInt8)).length = hdr.recordSize := List.length_replicate
  constructor
  · constructor
    · apply length_setNumRecords
      apply length_setBitmap hfits (by rw [Bitmap.length_reset, length_bitmap])
      exact length_setSlot hfits hslot hzeros hcounted.length
    · rw [numRecords_clear hfits hslot hcounted hused, hcounted.numRecords,
        countP_clear hfits hslot hused]
      omega
  · intro i
    have hslots : slot hdr (clear hdr page slotNo) i =
        if i = slotNo then List.replicate hdr.recordSize 0 else slot hdr page i := by
      rw [clear, slot_setNumRecords, slot_setBitmap (by rw [Bitmap.length_reset, length_bitmap]),
        slot_setSlot hzeros]
    rw [content, isSet_clear hfits hslot, hslots, content]
    by_cases heq : i = slotNo
    · simp [heq]
    · simp [heq]

theorem setSlot_rewrote (hused : Bitmap.isSet (bitmap hdr page) slotNo = true)
    (hbytes : bytes.length = hdr.recordSize) :
    Rewrote hdr page (setSlot hdr page slotNo bytes) slotNo (some bytes) := by
  constructor
  · constructor
    · exact length_setSlot hfits hslot hbytes hcounted.length
    · rw [numRecords_setSlot, bitmap_setSlot]
      exact hcounted.numRecords
  · intro i
    rw [content, bitmap_setSlot, slot_setSlot hbytes, content]
    by_cases heq : i = slotNo
    · simp [heq, hused]
    · simp [heq]

end writes

/-- The link to the next free page is beside the records. -/
theorem counted_setNextFreePageNo (hcounted : Counted hdr page) :
    Counted hdr (setNextFreePageNo page pageNo) := by
  constructor
  · exact length_setNextFreePageNo hcounted.length
  · rw [numRecords_setNextFreePageNo, bitmap_setNextFreePageNo]
    exact hcounted.numRecords

@[simp] theorem content_setNextFreePageNo : content hdr (setNextFreePageNo page pageNo) i = content hdr page i := by
  rw [content, bitmap_setNextFreePageNo, slot_setNextFreePageNo, content]

/-- A page with all bits clear holds nothing. -/
theorem blank_spec (hfits : hdr.Fits) (hlen : page.length = pageSize) (hnum : numRecords page = 0) :
    Counted hdr (setBitmap page (Bitmap.init hdr.bitmapSize)) ∧
      ∀ i, content hdr (setBitmap page (Bitmap.init hdr.bitmapSize)) i = none := by
  have hinit : (Bitmap.init hdr.bitmapSize).length = hdr.bitmapSize := List.length_replicate
  have hclear : ∀ i, Bitmap.isSet (bitmap hdr (setBitmap page (Bitmap.init hdr.bitmapSize))) i = false := by
    intro i
    rw [bitmap_setBitmap hinit, Bitmap.isSet_init]
  constructor
  · constructor
    · exact length_setBitmap hfits hinit hlen
    · rw [numRecords_setBitmap, hnum, funext hclear, List.countP_false]
      rfl
  · intro i
    exact content_eq_none_iff.mpr (hclear i)

/-- A page with room has a first free slot. -/
theorem firstFree_lt (hroom : Counted hdr page) (hlt : numRecords page < hdr.numRecordsPerPage) :
    Bitmap.firstBit false (bitmap hdr page) hdr.numRecordsPerPage < hdr.numRecordsPerPage ∧
      content hdr page (Bitmap.firstBit false (bitmap hdr page) hdr.numRecordsPerPage) = none := by
  have hfree : ∃ i < hdr.numRecordsPerPage, Bitmap.isSet (bitmap hdr page) i = false := by
    by_contra hall
    have hfull : (List.range hdr.numRecordsPerPage).countP (Bitmap.isSet (bitmap hdr page)) =
        (List.range hdr.numRecordsPerPage).length := by
      rw [List.countP_eq_length]
      intro i hi
      by_contra hclear
      exact hall ⟨i, List.mem_range.mp hi, Bool.eq_false_iff.mpr hclear⟩
    rw [hroom.numRecords, hfull, List.length_range] at hlt
    omega
  obtain ⟨hslot, hclear⟩ := Bitmap.firstBit_false hfree
  exact ⟨hslot, content_eq_none_iff.mpr hclear⟩

end lemmas
end RmPage
end Rmdb
