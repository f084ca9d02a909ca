import Rmdb.Record.RmFile

/-! `get_record` on the bytes of a page. Outside of MVCC mode it guesses from the record itself whether a
tuple header stands before the data. -/
namespace Rmdb

/-- A record as `get_record` hands it out. -/
structure RecordCopy where
  size : ℤ
  data : Bytes
deriving DecidableEq, Repr

inductive RmError where
  | badArrayNewLength
deriving DecidableEq, Repr

/-- `new char[size]`, and a copy of so many bytes from a position on. -/
def copyRecord (page : Bytes) (pos : ℕ) (size : ℤ) : Except RmError RecordCopy :=
  if size < 0 then throw .badArrayNewLength else return ⟨size, Sparse.window 0 page pos size.toNat⟩

/-- The guess that a tuple header starts here: a timestamp above zero and a flag. -/
def looksLikeTupleMeta (page : Bytes) (pos : ℕ) : Bool :=
  let potentialTs := readDword (Sparse.window 0 page pos 8)
  let potentialDeleted : Bool := page.getD (pos + 8) 0 != 0
  0 < potentialTs.toInt && potentialTs.toNat < 2 ^ 64 - 1 && (potentialDeleted == false || potentialDeleted == true)

namespace RmFile

/-- The record of a slot, or `none` where there is no page. `isMvcc` says whether the context has a
transaction manager in MVCC mode; without a transaction there is no context. -/
def getRecord (f : RmFile) (isMvcc : Bool) (rid : Rid) : Except RmError (Option RecordCopy) :=
  match f.fetchPageHandle rid.pageNo with
  | none => return none
  | some page =>
    let pos := RmPage.slotPos f.hdr rid.slotNo.toNat
    if isMvcc then some <$> copyRecord page pos f.hdr.recordSize
    else if looksLikeTupleMeta page pos then
      some <$> copyRecord page (pos + tupleMetaSize) (f.hdr.recordSize - tupleMetaSize)
    else some <$> copyRecord page pos f.hdr.recordSize

/-- Without a transaction the record comes back with the size of the file's records and with these bytes. -/
def ReadsBack (f : RmFile) (rid : Rid) (buf : Bytes) : Prop :=
  f.getRecord false rid = .ok (some ⟨f.hdr.recordSize, buf⟩)

/-- The first eight bytes of the record, with what stands behind the slot if it is shorter, are not a
positive number. -/
def NoTimestamp (hdr : RmFileHdr) (page : Bytes) (slotNo : ℕ) (buf : Bytes) : Prop :=
  (readDword (buf ++ Sparse.window 0 page (RmPage.slotPos hdr slotNo + hdr.recordSize) 8)).toInt ≤ 0

/-- The slot that an insertion fills, and its page before that. -/
def freeSlot (f : RmFile) : ℕ :=
  let (pageNo, f) := f.createPageHandle
  Bitmap.firstBit false (RmPage.bitmap f.hdr (f.pages pageNo)) f.hdr.numRecordsPerPage

def freePage (f : RmFile) : Bytes := f.createPageHandle.2.pages f.createPageHandle.1

variable {f : RmFile} {hdr : RmFileHdr} {page page' buf : Bytes} {pageNo : ℤ} {slotNo : ℕ} {rid : Rid}

theorem readWord_congr {a b : Bytes} (h : ∀ i < 4, a.getD i 0 = b.getD i 0) : readWord a = readWord b := by
  unfold readWord
  rw [h 0 (by omega), h 1 (by omega), h 2 (by omega), h 3 (by omega)]

theorem readDword_congr {a b : Bytes} (h : ∀ i < 8, a.getD i 0 = b.getD i 0) : readDword a = readDword b := by
  have hhigh : ∀ i < 4, (a.drop 4).getD i 0 = (b.drop 4).getD i 0 := by
    intro i hi
    have hget := h (4 + i) (by omega)
    rw [List.getD_eq_getElem?_getD, List.getD_eq_getElem?_getD] at hget
    rw [List.getD_eq_getElem?_getD, List.getD_eq_getElem?_getD, List.getElem?_drop, List.getElem?_drop]
    exact hget
  have hlow : ∀ i < 4, a.getD i 0 = b.getD i 0 := fun i hi => h i (by omega)
  rw [readDword, readDword, readWord_congr hhigh, readWord_congr hlow]

/-- A flag is always one of the two values, and no positive number is above the largest one. -/
theorem looksLikeTupleMeta_iff {pos : ℕ} :
    looksLikeTupleMeta page pos = true ↔ 0 < (readDword (Sparse.window 0 page pos 8)).toInt := by
  unfold looksLikeTupleMeta
  generalize readDword (Sparse.window 0 page pos 8) = ts
  have hflag : ((page.getD (pos + 8) 0 != 0) == false || (page.getD (pos + 8) 0 != 0) == true) = true := by
    cases page.getD (pos + 8) 0 != 0 <;> rfl
  simp only [hflag, Bool.and_true, Bool.and_eq_true, decide_eq_true_eq]
  constructor
  · intro h
    exact h.1
  · intro hpos
    have hbound := ts.isLt
    refine ⟨hpos, ?_⟩
    rw [BitVec.toInt_eq_toNat_cond] at hpos
    split at hpos <;> omega

theorem copyRecord_natCast (page : Bytes) (pos size : ℕ) :
    copyRecord page pos size = .ok ⟨size, Sparse.window 0 page pos size⟩ := by
  have hnonneg : ¬(size : ℤ) < 0 := by omega
  rw [copyRecord, if_neg hnonneg, Int.toNat_natCast]
  rfl

/-- The page holds the record at its slot, and behind the slots' bytes it is as before. -/
structure Holds (hdr : RmFileHdr) (page page' : Bytes) (slotNo : ℕ) (buf : Bytes) : Prop where
  slot : RmPage.slot hdr page' slotNo = buf
  behind : ∀ i, RmPage.slotPos hdr slotNo + hdr.recordSize ≤ i → page'.getD i 0 = page.getD i 0

theorem Holds.looksLikeTupleMeta_iff (h : Holds hdr page page' slotNo buf) :
    looksLikeTupleMeta page' (RmPage.slotPos hdr slotNo) = true ↔ ¬NoTimestamp hdr page slotNo buf := by
  have hlen : buf.length = hdr.recordSize := by
    rw [← h.slot, RmPage.slot, Sparse.length_window]
  have hbytes : ∀ i < 8, (Sparse.window 0 page' (RmPage.slotPos hdr slotNo) 8).getD i 0 =
      (buf ++ Sparse.window 0 page (RmPage.slotPos hdr slotNo + hdr.recordSize) 8).getD i 0 := by
    intro i hi
    have hwindow : ∀ (b : Bytes) (pos size j : ℕ), j < size → (Sparse.window 0 b pos size).getD j 0 = b.getD (pos + j) 0 := by
      intro b pos size j hj
      rw [List.getD_eq_getElem _ _ (by rwa [Sparse.length_window])]
      simp only [Sparse.window, List.getElem_map, List.getElem_range]
    rw [hwindow _ _ _ _ hi]
    by_cases hin : i < hdr.recordSize
    · rw [List.getD_append _ _ _ _ (by omega), ← h.slot, RmPage.slot, hwindow _ _ _ _ hin]
    · rw [List.getD_append_right _ _ _ _ (by omega), hwindow _ _ _ _ (by omega), h.behind _ (by omega), hlen]
      congr 1
      omega
  rw [RmFile.looksLikeTupleMeta_iff, readDword_congr hbytes, NoTimestamp, not_le]

theorem readsBack_iff_of_holds (hpage : f.hasPage pageNo) (h : Holds f.hdr page (f.pages pageNo) slotNo buf) :
    f.ReadsBack ⟨pageNo, slotNo⟩ buf ↔ NoTimestamp f.hdr page slotNo buf := by
  have hguess := h.looksLikeTupleMeta_iff
  unfold ReadsBack getRecord
  rw [fetchPageHandle_eq hpage]
  simp only [Int.toNat_natCast, Bool.false_eq_true, if_false]
  by_cases hno : NoTimestamp f.hdr page slotNo buf
  · have hlooks : ¬looksLikeTupleMeta (f.pages pageNo) (RmPage.slotPos f.hdr slotNo) = true := by
      rw [hguess]
      exact not_not_intro hno
    rw [if_neg hlooks, copyRecord_natCast]
    have hslot : Sparse.window 0 (f.pages pageNo) (RmPage.slotPos f.hdr slotNo) f.hdr.recordSize = buf := h.slot
    rw [hslot]
    exact iff_of_true rfl hno
  · rw [if_pos (hguess.mpr hno)]
    apply iff_of_false _ hno
    -- what comes back is shorter, if anything does
    intro heq
    unfold copyRecord at heq
    split at heq
    · cases heq
    · have hsize := congrArg RecordCopy.size (Option.some.inj (Except.ok.inj heq))
      simp only [tupleMetaSize] at hsize
      omega

theorem readsBack_setPage_iff (hpage : f.hasPage pageNo) (h : Holds f.hdr page page' slotNo buf) :
    (f.setPage pageNo page').ReadsBack ⟨pageNo, slotNo⟩ buf ↔ NoTimestamp f.hdr page slotNo buf := by
  have hpage' : (f.setPage pageNo page').hasPage pageNo := hpage
  have hholds : Holds (f.setPage pageNo page').hdr page ((f.setPage pageNo page').pages pageNo) slotNo buf := by
    show Holds f.hdr page (Function.update f.pages pageNo page' pageNo) slotNo buf
    rwa [Function.update_self]
  exact readsBack_iff_of_holds hpage' hholds

theorem holds_setSlot (hbuf : buf.length = hdr.recordSize) :
    Holds hdr page (RmPage.setSlot hdr page slotNo buf) slotNo buf := by
  constructor
  · rw [RmPage.slot_setSlot hbuf, if_pos rfl]
  · intro i hi
    rw [RmPage.setSlot, Sparse.getD_overwrite, if_neg (by omega)]

theorem holds_fill (hbuf : buf.length = hdr.recordSize) :
    Holds hdr page (RmPage.fill hdr page slotNo buf) slotNo buf := by
  have hset : Holds hdr page (RmPage.setSlot hdr page slotNo buf) slotNo buf := holds_setSlot hbuf
  have hbm : ∀ b : Bytes, (Bitmap.set (RmPage.bitmap hdr b) slotNo).length = hdr.bitmapSize := by
    intro b
    rw [Bitmap.length_set, RmPage.length_bitmap]
  constructor
  · rw [RmPage.fill, RmPage.slot_setBitmap (hbm _), RmPage.slot_setNumRecords, hset.slot]
  · intro i hi
    have hpos : 12 + hdr.bitmapSize ≤ i := by
      unfold RmPage.slotPos at hi
      omega
    rw [RmPage.fill, RmPage.setBitmap, Sparse.getD_overwrite, hbm, if_neg (by omega), RmPage.setNumRecords,
      Sparse.getD_overwrite, length_wordBytes, if_neg (by omega), hset.behind i hi]

/-- An insertion finds a page of the file with a free slot. -/
theorem createPageHandle_room (hf : f.Coherent) : f.createPageHandle.2.hasPage f.createPageHandle.1 ∧
    RmPage.Counted f.createPageHandle.2.hdr f.freePage ∧
      RmPage.numRecords f.freePage < f.createPageHandle.2.hdr.numRecordsPerPage := by
  have hnew : f.createNewPageHandle.2.hasPage f.createNewPageHandle.1 ∧
      RmPage.Counted f.createNewPageHandle.2.hdr (f.createNewPageHandle.2.pages f.createNewPageHandle.1) ∧
        RmPage.numRecords (f.createNewPageHandle.2.pages f.createNewPageHandle.1) <
          f.createNewPageHandle.2.hdr.numRecordsPerPage := by
    have hcounter := hf.counter
    have hheader := hf.header_page
    unfold rmFirstRecordPage at hheader
    have hlen : (RmPage.setNextFreePageNo (RmPage.setNumRecords (List.replicate pageSize 0) 0)
        f.hdr.firstFreePageNo).length = pageSize :=
      RmPage.length_setNextFreePageNo (RmPage.length_setNumRecords List.length_replicate)
    have hnum : RmPage.numRecords (RmPage.setNextFreePageNo (RmPage.setNumRecords (List.replicate pageSize 0) 0)
        f.hdr.firstFreePageNo) = 0 := by
      rw [RmPage.numRecords_setNextFreePageNo, RmPage.numRecords_setNumRecords] <;> omega
    have hpage : f.createNewPageHandle.2.pages f.createNewPageHandle.1 = RmPage.setBitmap
        (RmPage.setNextFreePageNo (RmPage.setNumRecords (List.replicate pageSize 0) 0) f.hdr.firstFreePageNo)
          (Bitmap.init f.hdr.bitmapSize) := Function.update_self ..
    have hcounted := (RmPage.blank_spec hf.fits hlen hnum).1
    refine ⟨?_, ?_, ?_⟩
    · show 1 ≤ f.fd2pageno ∧ f.fd2pageno < f.hdr.numPages + 1
      omega
    · rw [hpage]
      exact ⟨hcounted.length, hcounted.numRecords⟩
    · rw [hpage, RmPage.numRecords_setBitmap, hnum]
      exact Int.natCast_pos.mpr hf.fits.pos
  unfold freePage
  rw [createPageHandle_eq]
  split
  · rename_i hpage
    have hne : f.hdr.firstFreePageNo ≠ rmNoPage := by
      unfold hasPage rmFirstRecordPage at hpage
      unfold rmNoPage
      omega
    exact ⟨hpage, hf.counted _ hpage, (hf.firstFree.resolve_left hne).2⟩
  · exact hnew

/-- A record that was inserted comes back just when it does not begin like a tuple header. -/
theorem insertRecord_readsBack_iff (hf : f.Coherent) (hbuf : buf.length = f.hdr.recordSize) :
    (f.insertRecord buf).2.ReadsBack (f.insertRecord buf).1 buf ↔ NoTimestamp f.hdr f.freePage f.freeSlot buf := by
  obtain ⟨hpage, hcounted, hroom⟩ := createPageHandle_room hf
  have hsize := createPageHandle_hdr f
  have hbits := createPageHandle_bitmapSize f
  obtain ⟨hslot, -⟩ := RmPage.firstFree_lt hcounted hroom
  unfold freePage at hslot hcounted hroom ⊢
  unfold freeSlot insertRecord
  generalize f.createPageHandle = created at *
  obtain ⟨pageNo, f₁⟩ := created
  simp only at hpage hsize hbits hslot ⊢
  generalize Bitmap.firstBit false (RmPage.bitmap f₁.hdr (f₁.pages pageNo)) f₁.hdr.numRecordsPerPage = slotNo at *
  have htake : buf.take f₁.hdr.recordSize = buf := List.take_of_length_le (by omega)
  have hplain : NoTimestamp f.hdr (f₁.pages pageNo) slotNo buf ↔ NoTimestamp f₁.hdr (f₁.pages pageNo) slotNo buf := by
    unfold NoTimestamp RmPage.slotPos
    rw [hsize, hbits]
  rw [if_pos hslot, htake, hplain]
  have hreads : (f₁.setPage pageNo (RmPage.fill f₁.hdr (f₁.pages pageNo) slotNo buf)).ReadsBack ⟨pageNo, slotNo⟩ buf ↔
      NoTimestamp f₁.hdr (f₁.pages pageNo) slotNo buf := by
    apply readsBack_setPage_iff hpage
    apply holds_fill
    omega
  split
  · exact hreads
  · exact hreads

theorem updateRecord_readsBack_iff (hpage : f.hasPage rid.pageNo) (hslot : 0 ≤ rid.slotNo)
    (hbuf : buf.length = f.hdr.recordSize) : (f.updateRecord rid buf).ReadsBack rid buf ↔
      NoTimestamp f.hdr (f.pages rid.pageNo) rid.slotNo.toNat buf := by
  obtain ⟨pageNo, slotNo⟩ := rid
  obtain ⟨slotNo, rfl⟩ := Int.eq_ofNat_of_zero_le hslot
  unfold updateRecord
  rw [fetchPageHandle_eq hpage, List.take_of_length_le (by omega)]
  show (f.setPage pageNo (RmPage.setSlot f.hdr (f.pages pageNo) slotNo buf)).ReadsBack ⟨pageNo, slotNo⟩ buf ↔ _
  exact readsBack_setPage_iff hpage (holds_setSlot hbuf)

/-- After an insertion or an update without a transaction the record comes back with its bytes just when
its first eight bytes are not a positive number. -/
theorem readsBack_iff (hf : f.Coherent) (hbuf : buf.length = f.hdr.recordSize) :
    ((f.insertRecord buf).2.ReadsBack (f.insertRecord buf).1 buf ↔ NoTimestamp f.hdr f.freePage f.freeSlot buf) ∧
      ∀ rid : Rid, f.hasPage rid.pageNo → 0 ≤ rid.slotNo → rid.slotNo < f.hdr.numRecordsPerPage →
        ((f.updateRecord rid buf).ReadsBack rid buf ↔ NoTimestamp f.hdr (f.pages rid.pageNo) rid.slotNo.toNat buf) :=
  ⟨insertRecord_readsBack_iff hf hbuf, fun _ hpage hslot _ => updateRecord_readsBack_iff hpage hslot hbuf⟩

/-- A new file of records of so many bytes. -/
def newFile (recordSize : ℕ) : RmFile := openFile (createHdr recordSize).encode fun _ => []

theorem newFile_coherent {recordSize : ℕ} (hpos : 0 < recordSize) (hle : recordSize ≤ rmMaxRecordSize) :
    (newFile recordSize).Coherent := by
  have hcreate : createFile recordSize = some (createHdr recordSize).encode := by
    have hsize : ¬((recordSize : ℤ) < 1 ∨ rmMaxRecordSize < (recordSize : ℤ)) := by omega
    rw [createFile, if_neg hsize, Int.toNat_natCast]
  exact openFile_coherent hcreate _

/-- A record of zeros comes back. -/
theorem readsBack_zeros : ((newFile 32).insertRecord (List.replicate 32 0)).2.ReadsBack
    ((newFile 32).insertRecord (List.replicate 32 0)).1 (List.replicate 32 0) := by
  have hcoh : (newFile 32).Coherent := newFile_coherent (by decide) (by decide)
  apply (readsBack_iff hcoh (by decide +kernel)).1.mpr
  unfold NoTimestamp
  decide +kernel

/-- A record of 32 bytes that begins with the number seven comes back without its first sixteen bytes. -/
theorem not_readsBack_seven : ∃ buf : Bytes, buf.length = (newFile 32).hdr.recordSize ∧
    ¬((newFile 32).insertRecord buf).2.ReadsBack ((newFile 32).insertRecord buf).1 buf := by
  refine ⟨wordBytes 7 ++ List.replicate 28 0, by decide +kernel, ?_⟩
  have hcoh : (newFile 32).Coherent := newFile_coherent (by decide) (by decide)
  rw [insertRecord_readsBack_iff hcoh (by decide +kernel)]
  unfold NoTimestamp
  decide +kernel

end RmFile
end Rmdb
