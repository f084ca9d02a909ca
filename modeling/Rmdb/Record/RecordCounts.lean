import Rmdb.Record.FreeList

/-! The record counters of the pages against their bitmaps, over any calls on a record file. -/
namespace Rmdb

namespace RmPage

/-- The page header says how many bits of the page are set. -/
def Tallied (hdr : RmFileHdr) (page : Bytes) : Prop :=
  numRecords page = (List.range hdr.numRecordsPerPage).countP (Bitmap.isSet (bitmap hdr page))

variable {hdr : RmFileHdr} {page bytes : Bytes} {pageNo : ℤ} {slotNo : ℕ}

theorem Tallied.le (h : Tallied hdr page) : numRecords page ≤ hdr.numRecordsPerPage := by
  have hle := List.countP_le_length (p := Bitmap.isSet (bitmap hdr page)) (l := List.range hdr.numRecordsPerPage)
  rw [List.length_range] at hle
  rw [h]
  exact Int.ofNat_le.mpr hle

/-- The counter of a full page is the number of its slots, and of no other. -/
theorem Tallied.full_iff (h : Tallied hdr page) : numRecords page = hdr.numRecordsPerPage ↔ ¬HasRoom hdr page := by
  have hall : (List.range hdr.numRecordsPerPage).countP (Bitmap.isSet (bitmap hdr page)) =
      (List.range hdr.numRecordsPerPage).length ↔ ¬HasRoom hdr page := by
    rw [List.countP_eq_length]
    constructor
    · intro hset ⟨i, hi, hfree⟩
      have hused := hset i (List.mem_range.mpr hi)
      rw [hfree] at hused
      cases hused
    · intro hfull i hi
      by_contra hclear
      exact hfull ⟨i, List.mem_range.mp hi, Bool.eq_false_iff.mpr hclear⟩
  rw [← hall, h, List.length_range, Int.ofNat_inj]

@[simp] theorem tallied_setSlot : Tallied hdr (setSlot hdr page slotNo bytes) ↔ Tallied hdr page := by
  rw [Tallied, numRecords_setSlot, bitmap_setSlot, Tallied]

@[simp] theorem tallied_setNextFreePageNo : Tallied hdr (setNextFreePageNo page pageNo) ↔ Tallied hdr page := by
  rw [Tallied, numRecords_setNextFreePageNo, bitmap_setNextFreePageNo, Tallied]

theorem Tallied.numRecords_fill (hfits : hdr.Fits) (h : Tallied hdr page) :
    numRecords (fill hdr page slotNo bytes) = numRecords page + 1 := by
  have hle := h.le
  have hnonneg : 0 ≤ numRecords page := by
    rw [h]
    exact Int.natCast_nonneg _
  have hbits := hfits.bits
  have hslots := hfits.slots
  unfold pageSize at hslots
  rw [numRecords_fill_int32, int32_eq] <;> omega

section writes
variable (hfits : hdr.Fits) (hslot : slotNo < hdr.numRecordsPerPage) (h : Tallied hdr page)
include hfits hslot h

/-- The counter follows an insertion just when the slot was free. -/
theorem Tallied.fill_iff : Tallied hdr (fill hdr page slotNo bytes) ↔ Bitmap.isSet (bitmap hdr page) slotNo = false := by
  have hset : Bitmap.isSet (bitmap hdr (fill hdr page slotNo bytes)) =
      fun i => decide (i = slotNo) || Bitmap.isSet (bitmap hdr page) i := by
    funext i
    exact isSet_fill hfits hslot
  rw [Tallied, h.numRecords_fill hfits, hset, h]
  cases hused : Bitmap.isSet (bitmap hdr page) slotNo with
  | false =>
    rw [countP_range_insert hslot hused]
    exact iff_of_true (by omega) rfl
  | true =>
    have hsame : (fun i => decide (i = slotNo) || Bitmap.isSet (bitmap hdr page) i) = Bitmap.isSet (bitmap hdr page) := by
      funext i
      by_cases heq : i = slotNo
      · rw [heq, hused, Bool.or_true]
      · rw [decide_eq_false heq, Bool.false_or]
    rw [hsame]
    exact iff_of_false (by omega) Bool.noConfusion

theorem Tallied.clear (hused : Bitmap.isSet (bitmap hdr page) slotNo = true) : Tallied hdr (clear hdr page slotNo) := by
  have hcount := countP_clear hfits hslot hused
  have hle := h.le
  have hbits := hfits.bits
  have hslots := hfits.slots
  unfold pageSize at hslots
  have htally := h
  unfold Tallied at htally
  rw [Tallied, numRecords_clear_int32, int32_eq] <;> omega

/-- An insertion fills a page just when its counter comes to the number of the slots. -/
theorem Tallied.fillsUp_iff (hfree : Bitmap.isSet (bitmap hdr page) slotNo = false) :
    numRecords (fill hdr page slotNo bytes) = hdr.numRecordsPerPage ↔ FillsUp hdr page slotNo := by
  have hroom : HasRoom hdr page := ⟨slotNo, hslot, hfree⟩
  rw [((h.fill_iff hfits hslot).mpr hfree).full_iff, hasRoom_fill hfits hslot, and_iff_right hroom, not_not]

end writes
end RmPage

namespace RmFile

/-- The counter of every page is right, and an insertion finds a place. -/
def CountsRight (f : RmFile) : Prop :=
  (∀ p, f.hasPage p → RmPage.Tallied f.hdr (f.pages p)) ∧ ∀ buf, (f.insertRecord buf).1 ≠ ⟨-1, -1⟩

/-- An insertion at a given place takes a free slot, and where it fills the page, the page behind it in the list
has room. -/
def SpaceCall.KeepsCounts : SpaceCall → RmFile → Prop
  | .insertRecordAt rid _, f =>
    let page := f.pages rid.pageNo
    f.hasPage rid.pageNo → Bitmap.isSet (RmPage.bitmap f.hdr page) rid.slotNo.toNat = false ∧
      (RmPage.FillsUp f.hdr page rid.slotNo.toNat → f.hasPage (RmPage.nextFreePageNo page) →
        RmPage.nextFreePageNo page ≠ rid.pageNo ∧ RmPage.HasRoom f.hdr (f.pages (RmPage.nextFreePageNo page)))
  | .insertRecord _, _ => True
  | .deleteRecord _, _ => True
  | .updateRecord _ _, _ => True

instance : ∀ (call : SpaceCall) (f : RmFile), Decidable (call.KeepsCounts f)
  | .insertRecordAt _ _, _ => inferInstanceAs (Decidable (_ → _ ∧ (_ → _ → _ ∧ _)))
  | .insertRecord _, _ => inferInstanceAs (Decidable True)
  | .deleteRecord _, _ => inferInstanceAs (Decidable True)
  | .updateRecord _ _, _ => inferInstanceAs (Decidable True)

/-- The header and the page counter of the descriptor agree. -/
structure Placed (f : RmFile) : Prop where
  fits : f.hdr.Fits
  slots : 1 < f.hdr.numRecordsPerPage
  header_page : rmFirstRecordPage ≤ f.hdr.numPages
  counter : f.fd2pageno = f.hdr.numPages

variable {f : RmFile} {pageNo p : ℤ} {rid : Rid} {buf page : Bytes} {slotNo : ℕ}

theorem Placed.createNewPageHandle (hf : f.Placed) : f.createNewPageHandle.2.Placed := by
  have hcounter := hf.counter
  have hheader := hf.header_page
  refine ⟨⟨hf.fits.pos, hf.fits.bits, hf.fits.slots, hf.fits.recordSize⟩, hf.slots, ?_, ?_⟩
  · show rmFirstRecordPage ≤ f.hdr.numPages + 1
    omega
  · show f.fd2pageno + 1 = f.hdr.numPages + 1
    omega

theorem Placed.setPage (hf : f.Placed) : (f.setPage pageNo page).Placed :=
  ⟨hf.fits, hf.slots, hf.header_page, hf.counter⟩

theorem Placed.setFirstFree (hf : f.Placed) : (f.setFirstFree pageNo).Placed :=
  ⟨⟨hf.fits.pos, hf.fits.bits, hf.fits.slots, hf.fits.recordSize⟩, hf.slots, hf.header_page, hf.counter⟩

theorem Placed.writeHdr (hf : f.Placed) : f.writeHdr.Placed := ⟨hf.fits, hf.slots, hf.header_page, hf.counter⟩

theorem Placed.hasPage_new (hf : f.Placed) : f.createNewPageHandle.2.hasPage p ↔ f.hasPage p ∨ p = f.fd2pageno :=
  RmFile.hasPage_new hf.counter hf.header_page

theorem Placed.pages_new (hf : f.Placed) (hpage : f.hasPage p) : f.createNewPageHandle.2.pages p = f.pages p := by
  have hcounter := hf.counter
  have hne : p ≠ f.fd2pageno := by
    unfold hasPage at hpage
    omega
  rw [pages_createNewPageHandle, if_neg hne]

/-! ### A place for the next record -/

/-- An insertion fails where the page that it takes has no free slot. -/
theorem insertRecord_fst_iff : (f.insertRecord buf).1 ≠ ⟨-1, -1⟩ ↔ RmPage.HasRoom f.createPageHandle.2.hdr f.freePage := by
  unfold RmPage.HasRoom
  rw [← Bitmap.firstBit_false_lt_iff]
  unfold insertRecord freePage
  dsimp only
  split
  · rename_i hlt
    refine iff_of_true ?_ hlt
    intro heq
    have hslot := congrArg Rid.slotNo heq
    dsimp only at hslot
    omega
  · rename_i hfull
    exact iff_of_false (fun hne => hne rfl) hfull

/-- The first page with room, where the file has it, has room. -/
theorem countsRight_iff (hf : f.Placed) : f.CountsRight ↔ (∀ p, f.hasPage p → RmPage.Tallied f.hdr (f.pages p)) ∧
    (f.hasPage f.hdr.firstFreePageNo → RmPage.HasRoom f.hdr (f.pages f.hdr.firstFreePageNo)) := by
  have hnew : RmPage.HasRoom f.createNewPageHandle.2.hdr (f.createNewPageHandle.2.pages f.fd2pageno) :=
    ⟨0, hf.fits.pos, hasRoom_new f 0⟩
  have hroom : RmPage.HasRoom f.createPageHandle.2.hdr f.freePage ↔
      (f.hasPage f.hdr.firstFreePageNo → RmPage.HasRoom f.hdr (f.pages f.hdr.firstFreePageNo)) := by
    unfold freePage
    rw [createPageHandle_eq]
    by_cases hpage : f.hasPage f.hdr.firstFreePageNo
    · rw [if_pos hpage]
      exact (imp_iff_right hpage).symm
    · rw [if_neg hpage]
      exact iff_of_true hnew fun hin => absurd hin hpage
  apply and_congr_right
  intro _
  rw [← hroom]
  constructor
  · intro hall
    exact insertRecord_fst_iff.mp (hall [])
  · intro hall buf
    exact insertRecord_fst_iff.mpr hall

/-! ### The four calls -/

theorem tallied_setPage (pageNo : ℤ) (htallied : ∀ p, f.hasPage p → RmPage.Tallied f.hdr (f.pages p))
    (hpage : RmPage.Tallied f.hdr page) :
    ∀ p, f.hasPage p → RmPage.Tallied f.hdr ((f.setPage pageNo page).pages p) := by
  intro p hp
  show RmPage.Tallied f.hdr (Function.update f.pages pageNo page p)
  by_cases heq : p = pageNo
  · rw [heq, Function.update_self]
    exact hpage
  · rw [Function.update_of_ne heq]
    exact htallied p hp

theorem tallied_of_setPage (hpage : f.hasPage pageNo)
    (htallied : ∀ p, f.hasPage p → RmPage.Tallied f.hdr ((f.setPage pageNo page).pages p)) :
    RmPage.Tallied f.hdr page := by
  have hself : RmPage.Tallied f.hdr (Function.update f.pages pageNo page pageNo) := htallied pageNo hpage
  rw [Function.update_self] at hself
  exact hself

/-- A new page is counted, and it is the first with room. -/
theorem createNewPageHandle_counts (hf : f.Placed) (h : f.CountsRight) : f.createNewPageHandle.2.CountsRight := by
  apply (countsRight_iff hf.createNewPageHandle).mpr
  refine ⟨fun p hp => ?_, fun _ => ⟨0, hf.fits.pos, hasRoom_new f 0⟩⟩
  by_cases heq : p = f.fd2pageno
  · have hnone : (List.range f.hdr.numRecordsPerPage).countP
        (Bitmap.isSet (RmPage.bitmap f.hdr (f.createNewPageHandle.2.pages f.fd2pageno))) = 0 := by
      rw [List.countP_eq_zero]
      intro i _
      rw [hasRoom_new]
      exact Bool.false_ne_true
    have hzero : RmPage.numRecords (f.createNewPageHandle.2.pages f.fd2pageno) = 0 := by
      rw [pages_createNewPageHandle, if_pos rfl, RmPage.numRecords_setBitmap, RmPage.numRecords_setNextFreePageNo,
        RmPage.numRecords_setNumRecords] <;> omega
    rw [heq]
    show RmPage.numRecords _ = (List.countP _ (List.range f.hdr.numRecordsPerPage) : ℤ)
    rw [hzero]
    exact (congrArg Nat.cast hnone).symm
  · have hpage := (hf.hasPage_new.mp hp).resolve_right heq
    rw [hf.pages_new hpage]
    exact h.1 p hpage

section fill
variable (hf : f.Placed) (htallied : ∀ p, f.hasPage p → RmPage.Tallied f.hdr (f.pages p)) (hpage : f.hasPage pageNo)
  (hslot : slotNo < f.hdr.numRecordsPerPage) (hfree : Bitmap.isSet (RmPage.bitmap f.hdr (f.pages pageNo)) slotNo = false)
include hf htallied hpage hslot hfree

/-- A free slot is filled, and the page keeps room. -/
theorem fill_counts (hnot : ¬RmPage.FillsUp f.hdr (f.pages pageNo) slotNo)
    (hroom : f.hasPage f.hdr.firstFreePageNo → RmPage.HasRoom f.hdr (f.pages f.hdr.firstFreePageNo)) :
    (f.setPage pageNo (RmPage.fill f.hdr (f.pages pageNo) slotNo buf)).CountsRight := by
  have htally : RmPage.Tallied f.hdr (RmPage.fill f.hdr (f.pages pageNo) slotNo buf) :=
    ((htallied pageNo hpage).fill_iff hf.fits hslot).mpr hfree
  have htallied' := tallied_setPage pageNo htallied htally
  apply (countsRight_iff hf.setPage).mpr
  refine ⟨htallied', fun hfirst => ?_⟩
  apply (hasRoom_setPage_fill hf.fits hslot).mpr
  exact ⟨hroom hfirst, fun _ => hnot⟩

/-- The last free slot of a page is filled, and the header names another page. -/
theorem fill_counts_iff (hfills : RmPage.FillsUp f.hdr (f.pages pageNo) slotNo) :
    ((f.setPage pageNo (RmPage.fill f.hdr (f.pages pageNo) slotNo buf)).setFirstFree p).CountsRight ↔
      (f.hasPage p → p ≠ pageNo ∧ RmPage.HasRoom f.hdr (f.pages p)) := by
  have htally : RmPage.Tallied f.hdr (RmPage.fill f.hdr (f.pages pageNo) slotNo buf) :=
    ((htallied pageNo hpage).fill_iff hf.fits hslot).mpr hfree
  have htallied' := tallied_setPage pageNo htallied htally
  have hroom : RmPage.HasRoom f.hdr ((f.setPage pageNo (RmPage.fill f.hdr (f.pages pageNo) slotNo buf)).pages p) ↔
      p ≠ pageNo ∧ RmPage.HasRoom f.hdr (f.pages p) := by
    rw [hasRoom_setPage_fill hf.fits hslot, and_comm]
    apply and_congr_left
    intro _
    constructor
    · intro hkept heq
      exact hkept heq hfills
    · intro hne heq
      exact absurd heq hne
  rw [countsRight_iff hf.setPage.setFirstFree, ← hroom]
  exact and_iff_right htallied'

end fill

theorem insertRecord_counts (buf : Bytes) (hf : f.Placed) (h : f.CountsRight) :
    (f.insertRecord buf).2.Placed ∧ (f.insertRecord buf).2.CountsRight := by
  have hroom : RmPage.HasRoom f.createPageHandle.2.hdr f.freePage := insertRecord_fst_iff.mp (h.2 buf)
  have htaken : f.createPageHandle.2.Placed ∧ f.createPageHandle.2.CountsRight ∧
      f.createPageHandle.2.hasPage f.createPageHandle.1 := by
    rw [createPageHandle_eq]
    split
    · rename_i hpage
      exact ⟨hf, h, hpage⟩
    · exact ⟨hf.createNewPageHandle, createNewPageHandle_counts hf h, hf.hasPage_new.mpr (Or.inr rfl)⟩
  obtain ⟨hslot, hfree⟩ := Bitmap.firstBit_false hroom
  rw [insertRecord_eq hslot]
  unfold filledPage
  unfold freePage at hroom hslot hfree ⊢
  change f.freeSlot < _ at hslot
  change Bitmap.isSet _ f.freeSlot = false at hfree
  generalize f.createPageHandle.2 = f₁ at *
  generalize f.createPageHandle.1 = pageNo at *
  obtain ⟨hf₁, h₁, hpage⟩ := htaken
  obtain ⟨htallied, hfirst⟩ := (countsRight_iff hf₁).mp h₁
  have hfull : RmPage.numRecords (RmPage.fill f₁.hdr (f₁.pages pageNo) f.freeSlot (buf.take f₁.hdr.recordSize)) =
      f₁.hdr.numRecordsPerPage ↔ _ := (htallied pageNo hpage).fillsUp_iff hf₁.fits hslot hfree
  split
  · rename_i hnum
    have hnone : f₁.hasPage rmNoPage → rmNoPage ≠ pageNo ∧ RmPage.HasRoom f₁.hdr (f₁.pages rmNoPage) := fun hin =>
      absurd hin not_hasPage_rmNoPage
    exact ⟨hf₁.setPage.setFirstFree, (fill_counts_iff hf₁ htallied hpage hslot hfree (hfull.mp hnum)).mpr hnone⟩
  · rename_i hnum
    exact ⟨hf₁.setPage, fill_counts hf₁ htallied hpage hslot hfree (fun hfills => hnum (hfull.mpr hfills)) hfirst⟩

/-- A new page is not filled up by one record. -/
theorem not_fillsUp_new (hf : f.Placed) :
    ¬RmPage.FillsUp f.hdr (f.createNewPageHandle.2.pages f.fd2pageno) slotNo := by
  intro ⟨_, hset⟩
  have hslots := hf.slots
  obtain ⟨i, hi, hne⟩ : ∃ i < f.hdr.numRecordsPerPage, i ≠ slotNo := by
    by_cases hzero : slotNo = 0
    · exact ⟨1, hslots, by omega⟩
    · exact ⟨0, by omega, by omega⟩
  have hused := hset i hi hne
  rw [hasRoom_new] at hused
  cases hused

/-- The condition, stated after the new page has been made. -/
theorem keepsCounts_insertRecordAt_iff (hf : f.Placed) (hpage : f.createNewPageHandle.2.hasPage rid.pageNo) :
    (SpaceCall.insertRecordAt rid buf).KeepsCounts f ↔
      let page := f.createNewPageHandle.2.pages rid.pageNo
      Bitmap.isSet (RmPage.bitmap f.hdr page) rid.slotNo.toNat = false ∧
        (RmPage.FillsUp f.hdr page rid.slotNo.toNat → f.createNewPageHandle.2.hasPage (RmPage.nextFreePageNo page) →
          RmPage.nextFreePageNo page ≠ rid.pageNo ∧
            RmPage.HasRoom f.hdr (f.createNewPageHandle.2.pages (RmPage.nextFreePageNo page))) := by
  have hcounter := hf.counter
  unfold SpaceCall.KeepsCounts
  dsimp only
  rcases hf.hasPage_new.mp hpage with hold | hnew
  · rw [hf.pages_new hold, imp_iff_right hold]
    apply and_congr_right
    intro _
    apply imp_congr_right
    intro _
    constructor
    · intro hroom hnext
      rcases hf.hasPage_new.mp hnext with hin | heq
      · rw [hf.pages_new hin]
        exact hroom hin
      · refine ⟨fun hsame => ?_, heq ▸ ⟨0, hf.fits.pos, hasRoom_new f 0⟩⟩
        unfold hasPage at hold
        omega
    · intro hroom hin
      rw [← hf.pages_new hin]
      exact hroom (hf.hasPage_new.mpr (Or.inl hin))
  · have hout : ¬f.hasPage rid.pageNo := by
      unfold hasPage
      omega
    rw [hnew]
    exact iff_of_true (fun hin => absurd (hnew ▸ hin) hout) ⟨hasRoom_new f _, fun hfills => absurd hfills (not_fillsUp_new hf)⟩

theorem insertRecordAt_counts_iff (buf : Bytes) (hf : f.Placed) (h : f.CountsRight)
    (hslot : 0 ≤ rid.slotNo ∧ rid.slotNo < f.hdr.numRecordsPerPage) :
    (f.insertRecordAt rid buf).Placed ∧
      ((f.insertRecordAt rid buf).CountsRight ↔ (SpaceCall.insertRecordAt rid buf).KeepsCounts f) := by
  have hf₁ := hf.createNewPageHandle
  have h₁ := createNewPageHandle_counts hf h
  have hslot' : rid.slotNo.toNat < f.createNewPageHandle.2.hdr.numRecordsPerPage := by
    show rid.slotNo.toNat < f.hdr.numRecordsPerPage
    omega
  by_cases hpage : f.createNewPageHandle.2.hasPage rid.pageNo
  · rw [keepsCounts_insertRecordAt_iff hf hpage, insertRecordAt_eq hpage]
    change _ ∧ (_ ↔ Bitmap.isSet (RmPage.bitmap f.createNewPageHandle.2.hdr _) _ = false ∧
      (RmPage.FillsUp f.createNewPageHandle.2.hdr _ _ → _ → _ ∧ RmPage.HasRoom f.createNewPageHandle.2.hdr _))
    generalize f.createNewPageHandle.2 = f₁ at *
    obtain ⟨htallied, hfirst⟩ := (countsRight_iff hf₁).mp h₁
    have htally := htallied rid.pageNo hpage
    dsimp only
    rw [RmPage.nextFreePageNo_fill]
    cases hused : Bitmap.isSet (RmPage.bitmap f₁.hdr (f₁.pages rid.pageNo)) rid.slotNo.toNat with
    | false =>
      rw [and_iff_right rfl]
      have hfull : RmPage.numRecords (RmPage.fill f₁.hdr (f₁.pages rid.pageNo) rid.slotNo.toNat
          (buf.take f₁.hdr.recordSize)) = f₁.hdr.numRecordsPerPage ↔ _ := htally.fillsUp_iff hf₁.fits hslot' hused
      split
      · rename_i hnum
        rw [imp_iff_right (hfull.mp hnum)]
        exact ⟨hf₁.setPage.setFirstFree, fill_counts_iff hf₁ htallied hpage hslot' hused (hfull.mp hnum)⟩
      · rename_i hnum
        have hnot := fun hfills => hnum (hfull.mpr hfills)
        exact ⟨hf₁.setPage, iff_of_true (fill_counts hf₁ htallied hpage hslot' hused hnot hfirst)
          fun hfills => absurd hfills hnot⟩
    | true =>
      -- the counter goes up by one and no bit is set
      have hbad : ¬RmPage.Tallied f₁.hdr (RmPage.fill f₁.hdr (f₁.pages rid.pageNo) rid.slotNo.toNat
          (buf.take f₁.hdr.recordSize)) := by
        rw [htally.fill_iff hf₁.fits hslot', hused]
        exact Bool.noConfusion
      have hcond : ∀ P : Prop, ¬(true = false ∧ P) := fun P hand => Bool.noConfusion hand.1
      split
      · exact ⟨hf₁.setPage.setFirstFree, iff_of_false (fun hright => hbad (tallied_of_setPage hpage hright.1)) (hcond _)⟩
      · exact ⟨hf₁.setPage, iff_of_false (fun hright => hbad (tallied_of_setPage hpage hright.1)) (hcond _)⟩
  · have hnothing : f.insertRecordAt rid buf = f.createNewPageHandle.2 := by
      unfold insertRecordAt
      simp only [fetchPageHandle_eq_none hpage]
    have hout : ¬f.hasPage rid.pageNo := fun hin => hpage (hf.hasPage_new.mpr (Or.inl hin))
    rw [hnothing]
    exact ⟨hf₁, iff_of_true h₁ fun hin => absurd hin hout⟩

theorem deleteRecord_counts (hf : f.Placed) (h : f.CountsRight)
    (hslot : 0 ≤ rid.slotNo ∧ rid.slotNo < f.hdr.numRecordsPerPage) :
    (f.deleteRecord rid).Placed ∧ (f.deleteRecord rid).CountsRight := by
  obtain ⟨pageNo, slotNo⟩ := rid
  dsimp only at hslot
  obtain ⟨slotNo, rfl⟩ := Int.eq_ofNat_of_zero_le hslot.1
  have hin : slotNo < f.hdr.numRecordsPerPage := by omega
  by_cases hpage : f.hasPage pageNo
  · by_cases hused : Bitmap.isSet (RmPage.bitmap f.hdr (f.pages pageNo)) slotNo = true
    · have htally : RmPage.Tallied f.hdr (RmPage.clear f.hdr (f.pages pageNo) slotNo) :=
        (h.1 pageNo hpage).clear hf.fits hin hused
      have hroom : RmPage.HasRoom f.hdr (RmPage.clear f.hdr (f.pages pageNo) slotNo) := RmPage.hasRoom_clear hf.fits hin
      have hlt : RmPage.numRecords (RmPage.clear f.hdr (f.pages pageNo) slotNo) < f.hdr.numRecordsPerPage := by
        apply lt_of_le_of_ne htally.le
        intro hfull
        exact htally.full_iff.mp hfull hroom
      have htally' : RmPage.Tallied f.hdr (RmPage.setNextFreePageNo (RmPage.clear f.hdr (f.pages pageNo) slotNo)
          f.hdr.firstFreePageNo) := RmPage.tallied_setNextFreePageNo.mpr htally
      have hroom' : RmPage.HasRoom f.hdr (RmPage.setNextFreePageNo (RmPage.clear f.hdr (f.pages pageNo) slotNo)
          f.hdr.firstFreePageNo) := (RmPage.hasRoom_congr RmPage.bitmap_setNextFreePageNo).mpr hroom
      rw [deleteRecord_eq hpage hused hlt]
      generalize RmPage.setNextFreePageNo (RmPage.clear f.hdr (f.pages pageNo) slotNo) f.hdr.firstFreePageNo = page at *
      have hf' : ((f.setPage pageNo page).setFirstFree pageNo).writeHdr.Placed := hf.setPage.setFirstFree.writeHdr
      have htallied := tallied_setPage pageNo h.1 htally'
      refine ⟨hf', (countsRight_iff hf').mpr ⟨htallied, fun _ => ?_⟩⟩
      show RmPage.HasRoom f.hdr (Function.update f.pages pageNo page pageNo)
      rw [Function.update_self]
      exact hroom'
    · have hnothing : f.deleteRecord ⟨pageNo, slotNo⟩ = f := by
        unfold deleteRecord
        simp only [fetchPageHandle_eq hpage, Int.toNat_natCast, hused]
        rfl
      rw [hnothing]
      exact ⟨hf, h⟩
  · have hnothing : f.deleteRecord ⟨pageNo, slotNo⟩ = f := by
      unfold deleteRecord
      rw [fetchPageHandle_eq_none hpage]
    rw [hnothing]
    exact ⟨hf, h⟩

theorem updateRecord_counts (rid : Rid) (buf : Bytes) (hf : f.Placed) (h : f.CountsRight) :
    (f.updateRecord rid buf).Placed ∧ (f.updateRecord rid buf).CountsRight := by
  obtain ⟨htallied, hfirst⟩ := (countsRight_iff hf).mp h
  unfold updateRecord
  by_cases hpage : f.hasPage rid.pageNo
  · rw [fetchPageHandle_eq hpage]
    dsimp only
    have htally : RmPage.Tallied f.hdr (RmPage.setSlot f.hdr (f.pages rid.pageNo) rid.slotNo.toNat
        (buf.take f.hdr.recordSize)) := RmPage.tallied_setSlot.mpr (htallied rid.pageNo hpage)
    have hroom : RmPage.HasRoom f.hdr (RmPage.setSlot f.hdr (f.pages rid.pageNo) rid.slotNo.toNat
        (buf.take f.hdr.recordSize)) ↔ RmPage.HasRoom f.hdr (f.pages rid.pageNo) := RmPage.hasRoom_congr RmPage.bitmap_setSlot
    generalize RmPage.setSlot f.hdr (f.pages rid.pageNo) rid.slotNo.toNat (buf.take f.hdr.recordSize) = page at *
    have htallied' := tallied_setPage rid.pageNo htallied htally
    refine ⟨hf.setPage, (countsRight_iff hf.setPage).mpr ⟨htallied', fun hin => ?_⟩⟩
    show RmPage.HasRoom f.hdr (Function.update f.pages rid.pageNo page f.hdr.firstFreePageNo)
    by_cases heq : f.hdr.firstFreePageNo = rid.pageNo
    · rw [heq, Function.update_self, hroom, ← heq]
      exact hfirst hin
    · rw [Function.update_of_ne heq]
      exact hfirst hin
  · rw [fetchPageHandle_eq_none hpage]
    exact ⟨hf, h⟩

/-! ### Runs -/

theorem step_counts {call : SpaceCall} (hf : f.Placed) (h : f.CountsRight) (hallowed : call.Allowed f) :
    (call.step f).Placed ∧ ((call.step f).CountsRight ↔ call.KeepsCounts f) := by
  cases call with
  | insertRecord buf =>
    obtain ⟨hf', hright⟩ := insertRecord_counts buf hf h
    exact ⟨hf', iff_of_true hright trivial⟩
  | insertRecordAt rid buf => exact insertRecordAt_counts_iff buf hf h hallowed.1
  | deleteRecord rid =>
    obtain ⟨hf', hright⟩ := deleteRecord_counts hf h hallowed
    exact ⟨hf', iff_of_true hright trivial⟩
  | updateRecord rid buf =>
    obtain ⟨hf', hright⟩ := updateRecord_counts rid buf hf h
    exact ⟨hf', iff_of_true hright trivial⟩

/-- The counters are right after every call just when every call keeps them. -/
theorem throughout_counts_iff (hf : f.Placed) (h : f.CountsRight) {calls : List SpaceCall}
    (hallowed : Runs.AllMeet SpaceCall.machine SpaceCall.Allowed calls f) :
    Runs.Throughout SpaceCall.machine (fun _ _ f' => f'.CountsRight) calls f ↔
      Runs.AllMeet SpaceCall.machine SpaceCall.KeepsCounts calls f := by
  have hgood : ∀ (f : RmFile) (call : SpaceCall), f.Placed ∧ f.CountsRight → call.Allowed f → call.KeepsCounts f →
      ∃ f', call.machine f = some f' ∧ f'.CountsRight ∧ f'.Placed ∧ f'.CountsRight := by
    intro f call ⟨hf, h⟩ hallowed hkeeps
    obtain ⟨hf', hiff⟩ := step_counts hf h hallowed
    exact ⟨_, rfl, hiff.mpr hkeeps, hf', hiff.mpr hkeeps⟩
  have hbad : ∀ (f : RmFile) (call : SpaceCall), f.Placed ∧ f.CountsRight → call.Allowed f → ¬call.KeepsCounts f →
      ∀ f', call.machine f = some f' → ¬f'.CountsRight := by
    intro f call ⟨hf, h⟩ hallowed hnot f' hstep hright
    obtain rfl := Option.some.inj hstep
    exact hnot ((step_counts hf h hallowed).2.mp hright)
  exact Runs.throughout_iff_of_allowed hgood hbad calls ⟨hf, h⟩ hallowed

theorem openFile_counts {recordSize : ℤ} {diskHdr : Bytes} (hcreate : createFile recordSize = some diskHdr)
    (pages : ℤ → Bytes) : (openFile diskHdr pages).Placed ∧ (openFile diskHdr pages).CountsRight := by
  obtain ⟨hlaid, l, hpath, _, hmem⟩ := openFile_freeList hcreate pages
  have hf : (openFile diskHdr pages).Placed := ⟨hlaid.fits, hlaid.slots, hlaid.header_page, hlaid.counter⟩
  have hcoh := openFile_coherent hcreate pages
  refine ⟨hf, (countsRight_iff hf).mpr ⟨fun p hp => (hcoh.counted p hp).numRecords, fun hin => ?_⟩⟩
  rcases hpath.head with ⟨hnone, -⟩ | ⟨-, rest, rfl⟩
  · exact absurd (hnone ▸ hin) not_hasPage_rmNoPage
  · exact ((hmem _).mp List.mem_cons_self).2

/-- On a new file, the counters agree with the bitmaps and an insertion finds a place in every state just when every
insertion at a given place takes a free slot and, where it fills the page, leaves a page with room at the head
of the list. -/
theorem countsRight_along_iff {recordSize : ℤ} {diskHdr : Bytes} (hcreate : createFile recordSize = some diskHdr)
    (pages : ℤ → Bytes) {calls : List SpaceCall}
    (hallowed : Runs.AllMeet SpaceCall.machine SpaceCall.Allowed calls (openFile diskHdr pages)) :
    ((openFile diskHdr pages).CountsRight ∧
      Runs.Throughout SpaceCall.machine (fun _ _ f' => f'.CountsRight) calls (openFile diskHdr pages)) ↔
        Runs.AllMeet SpaceCall.machine SpaceCall.KeepsCounts calls (openFile diskHdr pages) := by
  obtain ⟨hf, h⟩ := openFile_counts hcreate pages
  rw [and_iff_right h]
  exact throughout_counts_iff hf h hallowed

/-- A record is deleted for good and comes back at its place. -/
theorem countsRight_reinsert : (openFile (createHdr 512).encode fun _ => []).CountsRight ∧
    Runs.Throughout SpaceCall.machine (fun _ _ f' => f'.CountsRight)
      [.insertRecord (List.replicate 512 1), .deleteRecord ⟨1, 0⟩, .insertRecordAt ⟨1, 0⟩ (List.replicate 512 1)]
      (openFile (createHdr 512).encode fun _ => []) := by
  have hcreate : createFile 512 = some (createHdr 512).encode := rfl
  have hallowed : Runs.AllMeet SpaceCall.machine SpaceCall.Allowed
      [.insertRecord (List.replicate 512 1), .deleteRecord ⟨1, 0⟩, .insertRecordAt ⟨1, 0⟩ (List.replicate 512 1)]
      (openFile (createHdr 512).encode fun _ => []) := by decide +kernel
  have hkeeps : Runs.AllMeet SpaceCall.machine SpaceCall.KeepsCounts
      [.insertRecord (List.replicate 512 1), .deleteRecord ⟨1, 0⟩, .insertRecordAt ⟨1, 0⟩ (List.replicate 512 1)]
      (openFile (createHdr 512).encode fun _ => []) := by decide +kernel
  exact (countsRight_along_iff hcreate (fun _ => []) hallowed).mpr hkeeps

/-- A record whose deletion only marks it still has its slot when the rollback puts it back: the page counts it
twice. -/
theorem not_countsRight_marked : ∃ calls, Runs.AllMeet SpaceCall.machine SpaceCall.Allowed calls
      (openFile (createHdr 512).encode fun _ => []) ∧
    ¬Runs.Throughout SpaceCall.machine (fun _ _ f' => f'.CountsRight) calls (openFile (createHdr 512).encode fun _ => []) := by
  have hcreate : createFile 512 = some (createHdr 512).encode := rfl
  obtain ⟨hf, h⟩ := openFile_counts hcreate fun _ => []
  have hallowed : Runs.AllMeet SpaceCall.machine SpaceCall.Allowed
      [.insertRecord (List.replicate 512 1), .updateRecord ⟨1, 0⟩ (List.replicate 512 1),
        .insertRecordAt ⟨1, 0⟩ (List.replicate 512 1)] (openFile (createHdr 512).encode fun _ => []) := by
    apply Runs.allMeet_cons (by decide +kernel)
    apply Runs.allMeet_cons (by decide +kernel)
    apply Runs.allMeet_cons (by decide +kernel)
    trivial
  refine ⟨_, hallowed, fun hthroughout => ?_⟩
  have hkeeps := (throughout_counts_iff hf h hallowed).mp hthroughout
  have hreinsert := ((hkeeps.2 _ rfl).2 _ rfl).1
  revert hreinsert
  decide +kernel

end RmFile
end Rmdb
