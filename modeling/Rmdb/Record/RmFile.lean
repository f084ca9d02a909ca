import Rmdb.Record.RmPage
import Rmdb.Record.Heap
import Rmdb.Lib.Runs

/-! A record file as a map from record identifiers to bytes. The pages are what the buffer pool
gives out, and the header is written past it. -/
namespace Rmdb

structure RmFile where
  hdr : RmFileHdr
  pages : ℤ → Bytes
  diskHdr : Bytes
  fd2pageno : ℤ

namespace RmFile

def createHdr (recordSize : ℕ) : RmFileHdr :=
  let num := (8 * (pageSize - 1 - 20) + 1) / (1 + recordSize * 8)
  { recordSize
    numPages := 1
    numRecordsPerPage := num
    firstFreePageNo := rmNoPage
    bitmapSize := (num + 8 - 1) / 8 }

/-- The header of a new file goes to disk, unless the record size is refused. -/
def createFile (recordSize : ℤ) : Option Bytes :=
  if recordSize < 1 ∨ rmMaxRecordSize < recordSize then none
  else some (createHdr recordSize.toNat).encode

def openFile (diskHdr : Bytes) (pages : ℤ → Bytes) : RmFile :=
  let hdr := RmFileHdr.decode diskHdr
  { hdr, pages, diskHdr, fd2pageno := hdr.numPages }

def closeFile (f : RmFile) : Bytes := f.hdr.encode

def reopen (f : RmFile) : RmFile := openFile f.closeFile f.pages

section operations
variable (f : RmFile)

def hasPage (pageNo : ℤ) : Prop := rmFirstRecordPage ≤ pageNo ∧ pageNo < f.hdr.numPages

instance (pageNo : ℤ) : Decidable (f.hasPage pageNo) := inferInstanceAs (Decidable (_ ∧ _))

def fetchPageHandle (pageNo : ℤ) : Option Bytes :=
  if pageNo < rmFirstRecordPage ∨ f.hdr.numPages ≤ pageNo then none else some (f.pages pageNo)

def setPage (pageNo : ℤ) (page : Bytes) : RmFile := { f with pages := Function.update f.pages pageNo page }

def setFirstFree (pageNo : ℤ) : RmFile := { f with hdr := { f.hdr with firstFreePageNo := pageNo } }

/-- The header goes to disk. -/
def writeHdr : RmFile := { f with diskHdr := f.hdr.encode }

/-- A new page comes from the pool as zeros, under the next page number of the descriptor. -/
def createNewPageHandle : ℤ × RmFile :=
  let pageNo := f.fd2pageno
  let f := { f with fd2pageno := pageNo + 1, hdr := { f.hdr with numPages := f.hdr.numPages + 1 } }
  let page := RmPage.setNumRecords (List.replicate pageSize 0) 0
  let page := RmPage.setNextFreePageNo page f.hdr.firstFreePageNo
  let f := f.setFirstFree pageNo
  let page := RmPage.setBitmap page (Bitmap.init f.hdr.bitmapSize)
  (pageNo, (f.setPage pageNo page).writeHdr)

def createPageHandle : ℤ × RmFile :=
  let pageNo := f.hdr.firstFreePageNo
  if pageNo = -1 then f.createNewPageHandle
  else if 0 ≤ pageNo ∧ pageNo < f.hdr.numPages ∧ (f.fetchPageHandle pageNo).isSome then (pageNo, f)
  else f.createNewPageHandle

def insertRecord (buf : Bytes) : Rid × RmFile :=
  let (pageNo, f) := f.createPageHandle
  let slotNo := Bitmap.firstBit false (RmPage.bitmap f.hdr (f.pages pageNo)) f.hdr.numRecordsPerPage
  if slotNo < f.hdr.numRecordsPerPage then
    let page := RmPage.fill f.hdr (f.pages pageNo) slotNo (buf.take f.hdr.recordSize)
    let f := f.setPage pageNo page
    (⟨pageNo, slotNo⟩,
      if RmPage.numRecords page = f.hdr.numRecordsPerPage then f.setFirstFree rmNoPage else f)
  else (⟨-1, -1⟩, f)

/-- The page becomes the first with room. -/
def releasePageHandle (pageNo : ℤ) : RmFile :=
  if 0 ≤ pageNo ∧ pageNo < f.hdr.numPages then
    let page := RmPage.setNextFreePageNo (f.pages pageNo) f.hdr.firstFreePageNo
    ((f.setPage pageNo page).setFirstFree pageNo).writeHdr
  else f

def deleteRecord (rid : Rid) : RmFile :=
  match f.fetchPageHandle rid.pageNo with
  | none => f
  | some page =>
    if Bitmap.isSet (RmPage.bitmap f.hdr page) rid.slotNo.toNat then
      let page := RmPage.clear f.hdr page rid.slotNo.toNat
      let f := f.setPage rid.pageNo page
      if RmPage.numRecords page < f.hdr.numRecordsPerPage then f.releasePageHandle rid.pageNo else f
    else f

def updateRecord (rid : Rid) (buf : Bytes) : RmFile :=
  match f.fetchPageHandle rid.pageNo with
  | none => f
  | some page =>
    f.setPage rid.pageNo (RmPage.setSlot f.hdr page rid.slotNo.toNat (buf.take f.hdr.recordSize))

/-- The map that the file stands for. -/
def contents (rid : Rid) : Option Bytes :=
  if f.hasPage rid.pageNo ∧ 0 ≤ rid.slotNo ∧ rid.slotNo < f.hdr.numRecordsPerPage then
    RmPage.content f.hdr (f.pages rid.pageNo) rid.slotNo.toNat
  else none

end operations

/-! ### The invariant -/

/-- The header, the page counter of the descriptor and the pages agree. -/
structure Coherent (f : RmFile) : Prop where
  fits : f.hdr.Fits
  header_page : rmFirstRecordPage ≤ f.hdr.numPages
  counter : f.fd2pageno = f.hdr.numPages
  reach : (f.hdr.numPages - 1) * pageSize < 2 ^ 31
  counted : ∀ pageNo, f.hasPage pageNo → RmPage.Counted f.hdr (f.pages pageNo)
  firstFree : f.hdr.firstFreePageNo = rmNoPage ∨ f.hasPage f.hdr.firstFreePageNo ∧
    RmPage.numRecords (f.pages f.hdr.firstFreePageNo) < f.hdr.numRecordsPerPage

variable {f : RmFile} {pageNo : ℤ} {rid : Rid} {buf page : Bytes} {slotNo : ℕ} {held : Option Bytes}

theorem toInt_readWord_int {z : ℤ} (b : Bytes) (hge : -2 ^ 31 ≤ z) (hlt : z < 2 ^ 31) :
    (readWord (wordBytes (.ofInt 32 z) ++ b)).toInt = z := by
  rw [readWord_wordBytes_append, BitVec.toInt_ofInt]
  apply Int.bmod_eq_of_le <;> omega

/-- The five numbers come back from the disk. -/
theorem decode_encode {hdr : RmFileHdr} (hfits : hdr.Fits) (hpages : 0 ≤ hdr.numPages ∧ hdr.numPages < 2 ^ 31)
    (hfree : -2 ^ 31 ≤ hdr.firstFreePageNo ∧ hdr.firstFreePageNo < 2 ^ 31) :
    RmFileHdr.decode hdr.encode = hdr := by
  have hslots := hfits.slots
  have hbits := hfits.bits
  have hsize := hfits.recordSize
  unfold pageSize at hslots hsize
  have hskip : ∀ (w : BitVec 32) (k : ℕ) (b : Bytes), (wordBytes w ++ b).drop (4 + k) = b.drop k := by
    intro w k b
    rw [← List.drop_drop, List.drop_left' (length_wordBytes w)]
  have hlast : wordBytes (.ofInt 32 (hdr.bitmapSize : ℤ)) = wordBytes (.ofInt 32 (hdr.bitmapSize : ℤ)) ++ [] :=
    (List.append_nil _).symm
  unfold RmFileHdr.decode RmFileHdr.encode
  rw [hlast]
  congr 1
  · rw [toInt_readWord_int _ (by omega) (by omega), Int.toNat_natCast]
  · rw [hskip _ 0, List.drop_zero, toInt_readWord_int _ (by omega) (by omega)]
  · rw [hskip _ 4, hskip _ 0, List.drop_zero, toInt_readWord_int _ (by omega) (by omega), Int.toNat_natCast]
  · rw [hskip _ 8, hskip _ 4, hskip _ 0, List.drop_zero, toInt_readWord_int _ (by omega) (by omega)]
  · rw [hskip _ 12, hskip _ 8, hskip _ 4, hskip _ 0, List.drop_zero, toInt_readWord_int _ (by omega) (by omega),
      Int.toNat_natCast]

/-- The slots of a page and the bits for them leave no more than the page has. -/
theorem fits_create {recordSize : ℕ} (hle : recordSize ≤ rmMaxRecordSize) : (createHdr recordSize).Fits := by
  have hnum := Nat.div_mul_le_self (8 * (pageSize - 1 - 20) + 1) (1 + recordSize * 8)
  unfold rmMaxRecordSize at hle
  constructor
  · apply Nat.div_pos
    · unfold pageSize
      omega
    · omega
  · simp only [createHdr]
    omega
  · simp only [createHdr]
    generalize (8 * (pageSize - 1 - 20) + 1) / (1 + recordSize * 8) = num at hnum ⊢
    unfold pageSize at hnum ⊢
    rw [Nat.mul_add, Nat.mul_one, ← Nat.mul_assoc] at hnum
    omega
  · show recordSize ≤ pageSize
    unfold pageSize
    omega

@[simp] theorem contents_setFirstFree : (f.setFirstFree pageNo).contents = f.contents := rfl

@[simp] theorem contents_writeHdr : f.writeHdr.contents = f.contents := rfl

theorem setPage_contents (hpage : f.hasPage pageNo) (hslot : slotNo < f.hdr.numRecordsPerPage)
    (hwrote : RmPage.Rewrote f.hdr (f.pages pageNo) page slotNo held) :
    (f.setPage pageNo page).contents = Function.update f.contents ⟨pageNo, slotNo⟩ held := by
  funext r
  by_cases hrid : r = ⟨pageNo, slotNo⟩
  · have hin : f.hasPage pageNo ∧ (0 : ℤ) ≤ slotNo ∧ (slotNo : ℤ) < f.hdr.numRecordsPerPage :=
      ⟨hpage, Int.natCast_nonneg _, Int.ofNat_lt.mpr hslot⟩
    subst hrid
    rw [Function.update_self, contents]
    have hcontent := hwrote.content slotNo
    rw [if_pos rfl] at hcontent
    rw [← hcontent]
    simp only [setPage, Function.update_self, Int.toNat_natCast]
    exact if_pos hin
  · rw [Function.update_of_ne hrid, contents, contents]
    by_cases hno : r.pageNo = pageNo
    · apply ite_congr rfl _ fun _ => rfl
      intro hin
      have hne : r.slotNo.toNat ≠ slotNo := by
        intro heq
        apply hrid
        rw [Rid.mk.injEq]
        exact ⟨hno, by omega⟩
      have hcontent := hwrote.content r.slotNo.toNat
      rw [if_neg hne] at hcontent
      rw [hno, ← hcontent]
      simp only [setPage, Function.update_self]
    · simp only [setPage, Function.update_of_ne hno]
      rfl

/-- One page is written, and then another may be the first with room. -/
theorem Coherent.write (hf : f.Coherent) (firstFree : ℤ) (diskHdr : Bytes)
    (hcounted : RmPage.Counted f.hdr page)
    (hfree : firstFree = rmNoPage ∨ f.hasPage firstFree ∧
      RmPage.numRecords (Function.update f.pages pageNo page firstFree) < f.hdr.numRecordsPerPage) :
    Coherent { (f.setPage pageNo page).setFirstFree firstFree with diskHdr } where
  fits := ⟨hf.fits.pos, hf.fits.bits, hf.fits.slots, hf.fits.recordSize⟩
  header_page := hf.header_page
  counter := hf.counter
  reach := hf.reach
  counted no hno := by
    show RmPage.Counted _ (Function.update f.pages pageNo page no)
    by_cases heq : no = pageNo
    · rw [heq, Function.update_self]
      exact ⟨hcounted.length, hcounted.numRecords⟩
    · rw [Function.update_of_ne heq]
      have hpage := hf.counted no hno
      exact ⟨hpage.length, hpage.numRecords⟩
  firstFree := hfree

theorem Coherent.numPages_lt (hf : f.Coherent) : f.hdr.numPages < 2 ^ 31 := by
  have hreach := hf.reach
  unfold pageSize at hreach
  omega

theorem reopen_eq (hf : f.Coherent) : f.reopen = { f with diskHdr := f.hdr.encode } := by
  have hlt := hf.numPages_lt
  have hpages := hf.header_page
  have hfree : -2 ^ 31 ≤ f.hdr.firstFreePageNo ∧ f.hdr.firstFreePageNo < 2 ^ 31 := by
    rcases hf.firstFree with hnone | ⟨hpage, _⟩
    · rw [hnone, rmNoPage]
      omega
    · unfold hasPage rmFirstRecordPage at hpage
      omega
  unfold rmFirstRecordPage at hpages
  rw [reopen, openFile, closeFile, decode_encode hf.fits ⟨by omega, hlt⟩ hfree, ← hf.counter]

theorem createNewPageHandle_spec (hf : f.Coherent) (hreach : f.fd2pageno * pageSize < 2 ^ 31) :
    f.createNewPageHandle.2.Coherent ∧ f.createNewPageHandle.2.contents = f.contents ∧
      f.createNewPageHandle.2.hdr.firstFreePageNo = f.createNewPageHandle.1 ∧
      f.createNewPageHandle.1 ≠ rmNoPage := by
  have hcounter := hf.counter
  have hheader := hf.header_page
  unfold rmFirstRecordPage at hheader
  let page := RmPage.setNextFreePageNo (RmPage.setNumRecords (List.replicate pageSize 0) 0) f.hdr.firstFreePageNo
  have hlen : page.length = pageSize :=
    RmPage.length_setNextFreePageNo (RmPage.length_setNumRecords List.length_replicate)
  have hnum : RmPage.numRecords page = 0 := by
    rw [RmPage.numRecords_setNextFreePageNo, RmPage.numRecords_setNumRecords] <;> omega
  obtain ⟨hcounted, hnothing⟩ := RmPage.blank_spec hf.fits hlen hnum
  have hpages : ∀ no, f.createNewPageHandle.2.pages no =
      if no = f.fd2pageno then RmPage.setBitmap page (Bitmap.init f.hdr.bitmapSize) else f.pages no :=
    fun no => Function.update_apply ..
  have hhas : ∀ no, f.createNewPageHandle.2.hasPage no ↔ f.hasPage no ∨ no = f.fd2pageno := by
    intro no
    simp only [hasPage, rmFirstRecordPage, createNewPageHandle, setFirstFree, setPage, writeHdr]
    omega
  refine ⟨?_, ?_, rfl, ?_⟩
  · constructor
    · exact ⟨hf.fits.pos, hf.fits.bits, hf.fits.slots, hf.fits.recordSize⟩
    · show 1 ≤ f.hdr.numPages + 1
      omega
    · show f.fd2pageno + 1 = f.hdr.numPages + 1
      rw [hcounter]
    · show (f.hdr.numPages + 1 - 1) * pageSize < 2 ^ 31
      rw [Int.add_sub_cancel, ← hcounter]
      exact hreach
    · intro no hno
      rw [hpages]
      split
      · exact ⟨hcounted.length, hcounted.numRecords⟩
      · rename_i hne
        have hpage := hf.counted no (((hhas no).mp hno).resolve_right hne)
        exact ⟨hpage.length, hpage.numRecords⟩
    · right
      have hpos := hf.fits.pos
      refine ⟨(hhas _).mpr (Or.inr rfl), ?_⟩
      rw [hpages]
      show RmPage.numRecords (if f.fd2pageno = f.fd2pageno then _ else _) < _
      rw [if_pos rfl, RmPage.numRecords_setBitmap, hnum]
      exact Int.natCast_pos.mpr hpos
  · funext r
    simp only [contents, hhas, hpages]
    by_cases hno : r.pageNo = f.fd2pageno
    · have hout : ¬f.hasPage f.fd2pageno := by
        unfold hasPage
        omega
      simp only [hno, hout, false_and, if_false, if_true]
      split
      · exact hnothing _
      · rfl
    · simp only [hno, or_false, if_false]
      rfl
  · show f.fd2pageno ≠ rmNoPage
    unfold rmNoPage
    omega

theorem fetchPageHandle_eq (hpage : f.hasPage pageNo) : f.fetchPageHandle pageNo = some (f.pages pageNo) := by
  have hout : ¬(pageNo < rmFirstRecordPage ∨ f.hdr.numPages ≤ pageNo) := by
    unfold hasPage at hpage
    omega
  rw [fetchPageHandle, if_neg hout]

theorem fetchPageHandle_eq_none (hpage : ¬f.hasPage pageNo) : f.fetchPageHandle pageNo = none := by
  have hout : pageNo < rmFirstRecordPage ∨ f.hdr.numPages ≤ pageNo := by
    unfold hasPage at hpage
    omega
  rw [fetchPageHandle, if_pos hout]

/-- An insertion takes the first page with room where the file has it, and makes a new one otherwise. -/
theorem createPageHandle_eq (f : RmFile) : f.createPageHandle =
    if f.hasPage f.hdr.firstFreePageNo then (f.hdr.firstFreePageNo, f) else f.createNewPageHandle := by
  unfold createPageHandle
  dsimp only
  by_cases hpage : f.hasPage f.hdr.firstFreePageNo
  · have hrange := hpage
    unfold hasPage rmFirstRecordPage at hrange
    have hfetch : 0 ≤ f.hdr.firstFreePageNo ∧ f.hdr.firstFreePageNo < f.hdr.numPages ∧
        (f.fetchPageHandle f.hdr.firstFreePageNo).isSome = true := by
      rw [fetchPageHandle_eq hpage]
      exact ⟨by omega, hrange.2, rfl⟩
    rw [if_pos hpage, if_neg (by omega), if_pos hfetch]
  · have hfetch : ¬(0 ≤ f.hdr.firstFreePageNo ∧ f.hdr.firstFreePageNo < f.hdr.numPages ∧
        (f.fetchPageHandle f.hdr.firstFreePageNo).isSome = true) := by
      rw [fetchPageHandle_eq_none hpage]
      simp
    rw [if_neg hpage, if_neg hfetch, ite_self]

/-- The page that an insertion takes has room. -/
theorem createPageHandle_spec (hf : f.Coherent) (hreach : f.createPageHandle.1 * pageSize < 2 ^ 31) :
    f.createPageHandle.2.Coherent ∧ f.createPageHandle.2.contents = f.contents ∧
      f.createPageHandle.2.hdr.firstFreePageNo = f.createPageHandle.1 ∧
      f.createPageHandle.1 ≠ rmNoPage := by
  rw [createPageHandle_eq] at hreach ⊢
  split at hreach <;> rename_i hpage
  · rw [if_pos hpage]
    have hne : f.hdr.firstFreePageNo ≠ rmNoPage := by
      unfold hasPage rmFirstRecordPage at hpage
      unfold rmNoPage
      omega
    exact ⟨hf, rfl, rfl, hne⟩
  · rw [if_neg hpage]
    exact createNewPageHandle_spec hf hreach

theorem createPageHandle_hdr (f : RmFile) : f.createPageHandle.2.hdr.recordSize = f.hdr.recordSize := by
  rw [createPageHandle_eq]
  split <;> rfl

theorem createPageHandle_bitmapSize (f : RmFile) : f.createPageHandle.2.hdr.bitmapSize = f.hdr.bitmapSize := by
  rw [createPageHandle_eq]
  split <;> rfl

/-- An insertion takes a free place and stores the record there. -/
theorem insertRecord_spec (hf : f.Coherent) (hreach : f.createPageHandle.1 * pageSize < 2 ^ 31)
    (hbuf : f.hdr.recordSize ≤ buf.length) :
    (f.insertRecord buf).2.Coherent ∧ f.contents (f.insertRecord buf).1 = none ∧
      (f.insertRecord buf).2.contents =
        Function.update f.contents (f.insertRecord buf).1 (some (buf.take f.hdr.recordSize)) := by
  have hsize := createPageHandle_hdr f
  obtain ⟨hcoh, hcontents, hfirst, hne⟩ := createPageHandle_spec hf hreach
  unfold insertRecord
  generalize f.createPageHandle = created at *
  obtain ⟨pageNo, f₁⟩ := created
  simp only at hsize hcoh hcontents hfirst hne ⊢
  have hroom := hcoh.firstFree.resolve_left (hfirst ▸ hne)
  rw [hfirst] at hroom
  have hcounted := hcoh.counted pageNo hroom.1
  obtain ⟨hslot, hfree⟩ := RmPage.firstFree_lt hcounted hroom.2
  generalize Bitmap.firstBit false (RmPage.bitmap f₁.hdr (f₁.pages pageNo)) f₁.hdr.numRecordsPerPage = slotNo at *
  have hlen : (buf.take f₁.hdr.recordSize).length = f₁.hdr.recordSize := by
    rw [List.length_take]
    omega
  have hwrote := RmPage.fill_rewrote hcoh.fits hslot hcounted hfree hlen
  have hcount : RmPage.numRecords (RmPage.fill f₁.hdr (f₁.pages pageNo) slotNo (buf.take f₁.hdr.recordSize)) =
      RmPage.numRecords (f₁.pages pageNo) + 1 := RmPage.numRecords_fill hcoh.fits hcounted
  have hupdate := setPage_contents hroom.1 hslot hwrote
  have hwas : f₁.contents ⟨pageNo, slotNo⟩ = none := by
    rw [contents, Int.toNat_natCast, hfree, ite_self]
  rw [if_pos hslot, ← hcontents, ← hsize]
  refine ⟨?_, hwas, ?_⟩
  · split
    · exact hcoh.write rmNoPage f₁.diskHdr hwrote.counted (Or.inl rfl)
    · rename_i hnotFull
      change ¬RmPage.numRecords _ = (f₁.hdr.numRecordsPerPage : ℤ) at hnotFull
      have hlt : RmPage.numRecords (Function.update f₁.pages pageNo
          (RmPage.fill f₁.hdr (f₁.pages pageNo) slotNo (buf.take f₁.hdr.recordSize)) f₁.hdr.firstFreePageNo) <
            f₁.hdr.numRecordsPerPage := by
        rw [hfirst, Function.update_self]
        omega
      exact hcoh.write f₁.hdr.firstFreePageNo f₁.diskHdr hwrote.counted (Or.inr ⟨hfirst ▸ hroom.1, hlt⟩)
  · rw [← hupdate]
    split <;> rfl

/-- A record is in a page of the file, at a slot whose bit is set. -/
theorem of_contents (hrid : (f.contents rid).isSome) : ∃ slotNo : ℕ, rid = ⟨rid.pageNo, slotNo⟩ ∧
    f.hasPage rid.pageNo ∧ slotNo < f.hdr.numRecordsPerPage ∧
      Bitmap.isSet (RmPage.bitmap f.hdr (f.pages rid.pageNo)) slotNo = true := by
  obtain ⟨pageNo, slotNo⟩ := rid
  unfold contents at hrid
  split at hrid
  · rename_i hin
    simp only at hin
    obtain ⟨hpage, hnonneg, hlt⟩ := hin
    refine ⟨slotNo.toNat, ?_, hpage, by omega, ?_⟩
    · rw [Int.toNat_of_nonneg hnonneg]
    · by_contra hclear
      rw [RmPage.content_eq_none_iff.mpr (Bool.eq_false_iff.mpr hclear)] at hrid
      exact Bool.false_ne_true hrid
  · exact absurd hrid Bool.false_ne_true

theorem updateRecord_spec (hf : f.Coherent) (hrid : (f.contents rid).isSome)
    (hbuf : f.hdr.recordSize ≤ buf.length) : (f.updateRecord rid buf).Coherent ∧
      (f.updateRecord rid buf).contents = Function.update f.contents rid (some (buf.take f.hdr.recordSize)) := by
  obtain ⟨slotNo, heq, hpage, hslot, hused⟩ := of_contents hrid
  have hlen : (buf.take f.hdr.recordSize).length = f.hdr.recordSize := by
    rw [List.length_take]
    omega
  have hwrote := RmPage.setSlot_rewrote hf.fits hslot (hf.counted _ hpage) hused hlen
  rw [heq, updateRecord, fetchPageHandle_eq hpage]
  simp only [Int.toNat_natCast]
  constructor
  · apply hf.write f.hdr.firstFreePageNo f.diskHdr hwrote.counted
    rcases hf.firstFree with hnone | ⟨hfirst, hroom⟩
    · exact Or.inl hnone
    · right
      refine ⟨hfirst, ?_⟩
      by_cases hno : f.hdr.firstFreePageNo = rid.pageNo
      · rw [hno, Function.update_self, RmPage.numRecords_setSlot, ← hno]
        exact hroom
      · rw [Function.update_of_ne hno]
        exact hroom
  · exact setPage_contents hpage hslot hwrote

/-- A deletion in a page that is not full afterwards, the page linked and the header written. -/
theorem deleteRecord_eq (hpage : f.hasPage pageNo)
    (hused : Bitmap.isSet (RmPage.bitmap f.hdr (f.pages pageNo)) slotNo = true)
    (hlt : RmPage.numRecords (RmPage.clear f.hdr (f.pages pageNo) slotNo) < f.hdr.numRecordsPerPage) :
    f.deleteRecord ⟨pageNo, slotNo⟩ = ((f.setPage pageNo (RmPage.setNextFreePageNo
      (RmPage.clear f.hdr (f.pages pageNo) slotNo) f.hdr.firstFreePageNo)).setFirstFree pageNo).writeHdr := by
  have hin : 0 ≤ pageNo ∧ pageNo < f.hdr.numPages := by
    unfold hasPage rmFirstRecordPage at hpage
    omega
  unfold deleteRecord
  rw [fetchPageHandle_eq hpage]
  simp only [Int.toNat_natCast, hused, if_true]
  generalize RmPage.clear f.hdr (f.pages pageNo) slotNo = page at hlt ⊢
  have hroom : RmPage.numRecords page < ((f.setPage pageNo page).hdr.numRecordsPerPage : ℤ) := hlt
  have hin' : 0 ≤ pageNo ∧ pageNo < (f.setPage pageNo page).hdr.numPages := hin
  rw [if_pos hroom, releasePageHandle, if_pos hin']
  simp only [setPage, Function.update_self, Function.update_idem]

theorem deleteRecord_spec (hf : f.Coherent) (hrid : (f.contents rid).isSome) :
    (f.deleteRecord rid).Coherent ∧ (f.deleteRecord rid).contents = Function.update f.contents rid none := by
  obtain ⟨slotNo, heq, hpage, hslot, hused⟩ := of_contents hrid
  have hcounted := hf.counted _ hpage
  have hwrote := RmPage.clear_rewrote hf.fits hslot hcounted hused
  have hbound := hcounted.lt_two_pow hf.fits
  have hnum := RmPage.numRecords_clear hf.fits hslot hcounted hused
  have hlt : RmPage.numRecords (RmPage.clear f.hdr (f.pages rid.pageNo) slotNo) < f.hdr.numRecordsPerPage := by
    omega
  have hlinked : RmPage.Rewrote f.hdr (f.pages rid.pageNo)
      (RmPage.setNextFreePageNo (RmPage.clear f.hdr (f.pages rid.pageNo) slotNo) f.hdr.firstFreePageNo) slotNo none := by
    constructor
    · exact RmPage.counted_setNextFreePageNo hwrote.counted
    · intro i
      rw [RmPage.content_setNextFreePageNo]
      exact hwrote.content i
  have hdelete := deleteRecord_eq hpage hused hlt
  rw [heq, hdelete]
  constructor
  · apply hf.write rid.pageNo _ hlinked.counted
    right
    refine ⟨hpage, ?_⟩
    rw [Function.update_self, RmPage.numRecords_setNextFreePageNo]
    exact hlt
  · rw [contents_writeHdr, contents_setFirstFree]
    exact setPage_contents hpage hslot hlinked

/-! ### Calls -/

inductive Call where
  | insertRecord (buf : Bytes)
  | deleteRecord (rid : Rid)
  | updateRecord (rid : Rid) (buf : Bytes)
  | reopen

def step : Call → RmFile → RmFile
  | .insertRecord buf, f => (f.insertRecord buf).2
  | .deleteRecord rid, f => f.deleteRecord rid
  | .updateRecord rid buf, f => f.updateRecord rid buf
  | .reopen, f => f.reopen

/-- A buffer holds a whole record and the page to use can be had; rows that are deleted or updated exist. -/
def Allowed : Call → RmFile → Prop
  | .insertRecord buf, f => f.hdr.recordSize ≤ buf.length ∧ f.createPageHandle.1 * pageSize < 2 ^ 31
  | .deleteRecord rid, f => (f.contents rid).isSome
  | .updateRecord rid buf, f => (f.contents rid).isSome ∧ f.hdr.recordSize ≤ buf.length
  | .reopen, _ => True

instance : ∀ (call : Call) (f : RmFile), Decidable (Allowed call f)
  | .insertRecord _, _ => inferInstanceAs (Decidable (_ ∧ _))
  | .deleteRecord _, _ => inferInstanceAs (Decidable (_ = true))
  | .updateRecord _ _, _ => inferInstanceAs (Decidable (_ ∧ _))
  | .reopen, _ => inferInstanceAs (Decidable True)

/-- What a call does to the map; an insertion finds its own place. -/
def OnMap (f : RmFile) : Call → RmFile → Prop
  | .insertRecord buf, f' => let rid := (f.insertRecord buf).1
      f.contents rid = none ∧ f'.contents = Function.update f.contents rid (some (buf.take f.hdr.recordSize))
  | .deleteRecord rid, f' => f'.contents = Function.update f.contents rid none
  | .updateRecord rid buf, f' =>
      f'.contents = Function.update f.contents rid (some (buf.take f.hdr.recordSize))
  | .reopen, f' => f'.contents = f.contents

theorem step_spec {call : Call} (hf : f.Coherent) (hallowed : Allowed call f) :
    OnMap f call (step call f) ∧ (step call f).Coherent := by
  cases call with
  | insertRecord buf =>
    obtain ⟨hcoh, hfree, hcontents⟩ := insertRecord_spec hf hallowed.2 hallowed.1
    exact ⟨⟨hfree, hcontents⟩, hcoh⟩
  | deleteRecord rid =>
    obtain ⟨hcoh, hcontents⟩ := deleteRecord_spec hf hallowed
    exact ⟨hcontents, hcoh⟩
  | updateRecord rid buf =>
    obtain ⟨hcoh, hcontents⟩ := updateRecord_spec hf hallowed.1 hallowed.2
    exact ⟨hcontents, hcoh⟩
  | reopen =>
    have heq := reopen_eq hf
    constructor
    · show f.reopen.contents = f.contents
      rw [heq]
      rfl
    · show f.reopen.Coherent
      rw [heq]
      exact ⟨hf.fits, hf.header_page, hf.counter, hf.reach, hf.counted, hf.firstFree⟩

theorem openFile_coherent {recordSize : ℤ} {diskHdr : Bytes} (hcreate : createFile recordSize = some diskHdr)
    (pages : ℤ → Bytes) : (openFile diskHdr pages).Coherent := by
  unfold createFile at hcreate
  split at hcreate
  · exact absurd hcreate (by simp)
  · rename_i hsize
    have hfits : (createHdr recordSize.toNat).Fits := fits_create (by omega)
    obtain rfl := Option.some.inj hcreate
    rw [openFile, decode_encode hfits (by simp [createHdr]) (by simp [createHdr, rmNoPage])]
    constructor
    · exact hfits
    · exact le_refl (1 : ℤ)
    · rfl
    · show ((1 : ℤ) - 1) * pageSize < 2 ^ 31
      omega
    · intro no hno
      have hnone : 1 ≤ no ∧ no < 1 := hno
      omega
    · exact Or.inl rfl

end RmFile
end Rmdb
