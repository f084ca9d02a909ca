import Rmdb.Lib.NextLinks
import Rmdb.Record.GetRecord

/-! The list of the pages with room, from the file header along the page headers. -/
namespace Rmdb

namespace RmPage

/-- `page_hdr->next_free_page_no`, behind the page's LSN. -/
def nextFreePageNo (page : Bytes) : ℤ := (readWord (Sparse.window 0 page 4 4)).toInt

section slots
variable (hdr : RmFileHdr) (page : Bytes)

def HasRoom : Prop := ∃ i < hdr.numRecordsPerPage, Bitmap.isSet (bitmap hdr page) i = false

/-- The slot is the last free one of its page. -/
def FillsUp (slotNo : ℕ) : Prop := Bitmap.isSet (bitmap hdr page) slotNo = false ∧
  ∀ i < hdr.numRecordsPerPage, i ≠ slotNo → Bitmap.isSet (bitmap hdr page) i = true

instance : Decidable (HasRoom hdr page) := inferInstanceAs (Decidable (∃ i < hdr.numRecordsPerPage, _))

instance (slotNo : ℕ) : Decidable (FillsUp hdr page slotNo) := inferInstanceAs (Decidable (_ ∧ _))

end slots

variable {hdr hdr' : RmFileHdr} {page bm bytes : Bytes} {num pageNo : ℤ} {slotNo i : ℕ}

@[simp] theorem nextFreePageNo_setNumRecords : nextFreePageNo (setNumRecords page num) = nextFreePageNo page := by
  rw [nextFreePageNo, setNumRecords, Sparse.window_overwrite_disjoint (by rw [length_wordBytes]; omega), nextFreePageNo]

@[simp] theorem nextFreePageNo_setBitmap : nextFreePageNo (setBitmap page bm) = nextFreePageNo page := by
  rw [nextFreePageNo, setBitmap, Sparse.window_overwrite_disjoint (by omega), nextFreePageNo]

@[simp] theorem nextFreePageNo_setSlot : nextFreePageNo (setSlot hdr page slotNo bytes) = nextFreePageNo page := by
  rw [nextFreePageNo, setSlot, Sparse.window_overwrite_disjoint (by rw [slotPos]; omega), nextFreePageNo]

theorem nextFreePageNo_setNextFreePageNo (hge : -2 ^ 31 ≤ pageNo) (hlt : pageNo < 2 ^ 31) :
    nextFreePageNo (setNextFreePageNo page pageNo) = pageNo := by
  have hword := Sparse.window_overwrite 0 page 4 (wordBytes (.ofInt 32 pageNo))
  rw [length_wordBytes] at hword
  rw [nextFreePageNo, setNextFreePageNo, hword, readWord_wordBytes, BitVec.toInt_ofInt]
  apply Int.bmod_eq_of_le <;> omega

@[simp] theorem nextFreePageNo_fill : nextFreePageNo (fill hdr page slotNo bytes) = nextFreePageNo page := by
  rw [fill, nextFreePageNo_setBitmap, nextFreePageNo_setNumRecords, nextFreePageNo_setSlot]

@[simp] theorem nextFreePageNo_clear : nextFreePageNo (clear hdr page slotNo) = nextFreePageNo page := by
  rw [clear, nextFreePageNo_setNumRecords, nextFreePageNo_setBitmap, nextFreePageNo_setSlot]

/-- Whatever the counter was, it is an `int` afterwards. -/
theorem numRecords_setNumRecords_int32 : numRecords (setNumRecords page num) = int32 num := by
  have hword := Sparse.window_overwrite 0 page 8 (wordBytes (.ofInt 32 num))
  rw [length_wordBytes] at hword
  rw [numRecords, setNumRecords, hword, readWord_wordBytes, int32]

theorem numRecords_fill_int32 : numRecords (fill hdr page slotNo bytes) = int32 (numRecords page + 1) := by
  rw [fill, numRecords_setBitmap, numRecords_setNumRecords_int32, numRecords_setSlot]

theorem numRecords_clear_int32 : numRecords (clear hdr page slotNo) = int32 (numRecords page - 1) := by
  rw [clear, numRecords_setNumRecords_int32, numRecords_setBitmap, numRecords_setSlot]

theorem hasRoom_congr (h : bitmap hdr bytes = bitmap hdr page) : HasRoom hdr bytes ↔ HasRoom hdr page := by
  unfold HasRoom
  rw [h]

section writes
variable (hfits : hdr.Fits) (hslot : slotNo < hdr.numRecordsPerPage)
include hfits hslot

/-- A page keeps its room unless its last free slot is filled. -/
theorem hasRoom_fill : HasRoom hdr (fill hdr page slotNo bytes) ↔ HasRoom hdr page ∧ ¬FillsUp hdr page slotNo := by
  constructor
  · intro ⟨i, hi, hfree⟩
    rw [isSet_fill hfits hslot, Bool.or_eq_false_iff, decide_eq_false_iff_not] at hfree
    refine ⟨⟨i, hi, hfree.2⟩, ?_⟩
    intro hfills
    have hset := hfills.2 i hi hfree.1
    rw [hfree.2] at hset
    cases hset
  · intro ⟨⟨i, hi, hfree⟩, hnot⟩
    by_contra hfull
    have hset : ∀ j < hdr.numRecordsPerPage, j ≠ slotNo → Bitmap.isSet (bitmap hdr page) j = true := by
      intro j hj hne
      by_contra hclear
      apply hfull
      refine ⟨j, hj, ?_⟩
      rw [isSet_fill hfits hslot, decide_eq_false hne, Bool.false_or]
      exact Bool.eq_false_iff.mpr hclear
    have hself : i = slotNo := by
      by_contra hne
      have hused := hset i hi hne
      rw [hfree] at hused
      cases hused
    exact hnot ⟨hself ▸ hfree, hset⟩

theorem hasRoom_clear : HasRoom hdr (clear hdr page slotNo) := by
  refine ⟨slotNo, hslot, ?_⟩
  rw [isSet_clear hfits hslot, decide_eq_true rfl, Bool.not_true, Bool.false_and]

end writes
end RmPage

namespace RmFile

section operations
variable (f : RmFile)

/-- `insert_record` with a record identifier. A new page is made first, whether it is used or not. -/
def insertRecordAt (rid : Rid) (buf : Bytes) : RmFile :=
  let f := f.createNewPageHandle.2
  match f.fetchPageHandle rid.pageNo with
  | none => f
  | some page =>
    let page := RmPage.fill f.hdr page rid.slotNo.toNat (buf.take f.hdr.recordSize)
    let f := f.setPage rid.pageNo page
    if RmPage.numRecords page = f.hdr.numRecordsPerPage then f.setFirstFree (RmPage.nextFreePageNo page) else f

/-- The page numbers from `pageNo` along `next_free_page_no`. -/
def FreePath : ℤ → List ℤ → Prop := NextLinks.Path (fun p => RmPage.nextFreePageNo (f.pages p)) f.hasPage rmNoPage

/-- The list of free pages ends, names no page twice, and names exactly the pages with a free slot. -/
def FreeListOk : Prop := ∃ l, f.FreePath f.hdr.firstFreePageNo l ∧ l.Nodup ∧
  ∀ p, p ∈ l ↔ f.hasPage p ∧ RmPage.HasRoom f.hdr (f.pages p)

end operations

inductive SpaceCall where
  | insertRecord (buf : Bytes)
  | insertRecordAt (rid : Rid) (buf : Bytes)
  | deleteRecord (rid : Rid)
  | updateRecord (rid : Rid) (buf : Bytes)

namespace SpaceCall

def step : SpaceCall → RmFile → RmFile
  | .insertRecord buf, f => (f.insertRecord buf).2
  | .insertRecordAt rid buf, f => f.insertRecordAt rid buf
  | .deleteRecord rid, f => f.deleteRecord rid
  | .updateRecord rid buf, f => f.updateRecord rid buf

def machine (call : SpaceCall) (f : RmFile) : Option RmFile := some (call.step f)

/-- A record identifier names a slot, and the number of a new page is an `int`. -/
def Allowed : SpaceCall → RmFile → Prop
  | .insertRecord _, f => f.hdr.numPages < 2 ^ 31 - 1
  | .insertRecordAt rid _, f => (0 ≤ rid.slotNo ∧ rid.slotNo < f.hdr.numRecordsPerPage) ∧ f.hdr.numPages < 2 ^ 31 - 1
  | .deleteRecord rid, f => 0 ≤ rid.slotNo ∧ rid.slotNo < f.hdr.numRecordsPerPage
  | .updateRecord rid _, f => 0 ≤ rid.slotNo ∧ rid.slotNo < f.hdr.numRecordsPerPage

/-- A page that an insertion fills is the only one in the list, and its counter says that it is full; an
insertion at a given place fills no page; a deletion takes from a full page, and its counter says that
it is not full any more. -/
def KeepsFreeList : SpaceCall → RmFile → Prop
  | .insertRecord _, f =>
    let f₁ := f.createPageHandle.2
    (int32 (RmPage.numRecords f.freePage + 1) = f₁.hdr.numRecordsPerPage ↔ RmPage.FillsUp f₁.hdr f.freePage f.freeSlot) ∧
      (RmPage.FillsUp f₁.hdr f.freePage f.freeSlot → RmPage.nextFreePageNo f.freePage = rmNoPage)
  | .insertRecordAt rid _, f =>
    let f₁ := f.createNewPageHandle.2
    f₁.hasPage rid.pageNo →
      int32 (RmPage.numRecords (f₁.pages rid.pageNo) + 1) ≠ f₁.hdr.numRecordsPerPage ∧
        ¬RmPage.FillsUp f₁.hdr (f₁.pages rid.pageNo) rid.slotNo.toNat
  | .deleteRecord rid, f =>
    f.hasPage rid.pageNo → Bitmap.isSet (RmPage.bitmap f.hdr (f.pages rid.pageNo)) rid.slotNo.toNat = true →
      (int32 (RmPage.numRecords (f.pages rid.pageNo) - 1) < f.hdr.numRecordsPerPage ↔
        ¬RmPage.HasRoom f.hdr (f.pages rid.pageNo))
  | .updateRecord _ _, _ => True

instance : ∀ (call : SpaceCall) (f : RmFile), Decidable (Allowed call f)
  | .insertRecord _, _ => inferInstanceAs (Decidable (_ < _))
  | .insertRecordAt _ _, _ => inferInstanceAs (Decidable ((_ ∧ _) ∧ _))
  | .deleteRecord _, _ => inferInstanceAs (Decidable (_ ∧ _))
  | .updateRecord _ _, _ => inferInstanceAs (Decidable (_ ∧ _))

instance : ∀ (call : SpaceCall) (f : RmFile), Decidable (KeepsFreeList call f)
  | .insertRecord _, _ => inferInstanceAs (Decidable ((_ ↔ _) ∧ (_ → _)))
  | .insertRecordAt _ _, _ => inferInstanceAs (Decidable (_ → _ ∧ _))
  | .deleteRecord _, _ => inferInstanceAs (Decidable (_ → _ → (_ ↔ _)))
  | .updateRecord _ _, _ => inferInstanceAs (Decidable True)

end SpaceCall

/-- The header, the page counter of the descriptor and the links agree. -/
structure Laid (f : RmFile) : Prop where
  fits : f.hdr.Fits
  slots : 1 < f.hdr.numRecordsPerPage
  header_page : rmFirstRecordPage ≤ f.hdr.numPages
  counter : f.fd2pageno = f.hdr.numPages
  numPages : f.hdr.numPages < 2 ^ 31
  linked : ∀ p, f.hasPage p → RmPage.nextFreePageNo (f.pages p) < f.hdr.numPages

variable {f : RmFile} {pageNo p : ℤ} {l l' : List ℤ} {rid : Rid} {buf page : Bytes} {slotNo : ℕ}

theorem not_hasPage_rmNoPage : ¬f.hasPage rmNoPage := by
  unfold hasPage rmNoPage rmFirstRecordPage
  omega

/-- The head of the list is a page or the mark at its end. -/
theorem FreePath.head (h : f.FreePath p l) : p = rmNoPage ∧ l = [] ∨ f.hasPage p ∧ ∃ rest, l = p :: rest := by
  cases l with
  | nil => exact Or.inl ⟨h, rfl⟩
  | cons q rest =>
    obtain ⟨rfl, hq, -⟩ := h
    exact Or.inr ⟨hq, rest, rfl⟩

theorem FreePath.range (hf : f.Laid) (h : f.FreePath p l) : -2 ^ 31 ≤ p ∧ p < f.hdr.numPages := by
  have hheader := hf.header_page
  unfold rmFirstRecordPage at hheader
  rcases h.head with ⟨rfl, -⟩ | ⟨hpage, -⟩
  · unfold rmNoPage
    omega
  · unfold hasPage rmFirstRecordPage at hpage
    omega

/-! ### A new page -/

theorem pages_createNewPageHandle (f : RmFile) (p : ℤ) : f.createNewPageHandle.2.pages p =
    if p = f.fd2pageno then RmPage.setBitmap (RmPage.setNextFreePageNo
      (RmPage.setNumRecords (List.replicate pageSize 0) 0) f.hdr.firstFreePageNo) (Bitmap.init f.hdr.bitmapSize)
    else f.pages p :=
  Function.update_apply ..

theorem hasPage_new (hcounter : f.fd2pageno = f.hdr.numPages) (hheader : rmFirstRecordPage ≤ f.hdr.numPages) :
    f.createNewPageHandle.2.hasPage p ↔ f.hasPage p ∨ p = f.fd2pageno := by
  unfold rmFirstRecordPage at hheader
  simp only [hasPage, rmFirstRecordPage, createNewPageHandle, setFirstFree, setPage, writeHdr]
  omega

theorem hasPage_createNewPageHandle (hf : f.Laid) : f.createNewPageHandle.2.hasPage p ↔ f.hasPage p ∨ p = f.fd2pageno :=
  hasPage_new hf.counter hf.header_page

theorem not_hasPage_counter (hf : f.Laid) : ¬f.hasPage f.fd2pageno := by
  rw [hf.counter]
  unfold hasPage
  omega

/-- All slots of a new page are free. -/
theorem hasRoom_new (f : RmFile) (i : ℕ) :
    Bitmap.isSet (RmPage.bitmap f.hdr (f.createNewPageHandle.2.pages f.fd2pageno)) i = false := by
  have hinit : (Bitmap.init f.hdr.bitmapSize).length = f.hdr.bitmapSize := List.length_replicate
  rw [pages_createNewPageHandle, if_pos rfl, RmPage.bitmap_setBitmap hinit]
  exact Bitmap.isSet_init ..

theorem createNewPageHandle_laid (hf : f.Laid) (hfree : f.FreePath f.hdr.firstFreePageNo l)
    (hlt : f.hdr.numPages < 2 ^ 31 - 1) : f.createNewPageHandle.2.Laid := by
  have hrange := hfree.range hf
  have hcounter := hf.counter
  have hheader := hf.header_page
  constructor
  · exact ⟨hf.fits.pos, hf.fits.bits, hf.fits.slots, hf.fits.recordSize⟩
  · exact hf.slots
  · show rmFirstRecordPage ≤ f.hdr.numPages + 1
    omega
  · show f.fd2pageno + 1 = f.hdr.numPages + 1
    omega
  · show f.hdr.numPages + 1 < 2 ^ 31
    omega
  · intro p hp
    show _ < f.hdr.numPages + 1
    rw [pages_createNewPageHandle]
    split
    · rw [RmPage.nextFreePageNo_setBitmap, RmPage.nextFreePageNo_setNextFreePageNo] <;> omega
    · rename_i hne
      have hold := hf.linked p (((hasPage_createNewPageHandle hf).mp hp).resolve_right hne)
      omega

/-- A new page goes to the front of the list. -/
theorem createNewPageHandle_path (hf : f.Laid) (hfree : f.FreePath f.hdr.firstFreePageNo l)
    (hmem : ∀ p, p ∈ l ↔ f.hasPage p ∧ RmPage.HasRoom f.hdr (f.pages p)) :
    f.createNewPageHandle.2.FreePath f.fd2pageno (f.fd2pageno :: l) ∧ f.fd2pageno ∉ l ∧
      ∀ p, p ∈ f.fd2pageno :: l ↔ f.createNewPageHandle.2.hasPage p ∧
        RmPage.HasRoom f.createNewPageHandle.2.hdr (f.createNewPageHandle.2.pages p) := by
  have hrange := hfree.range hf
  have hlive := NextLinks.Path.forall_live hfree
  have hnum := hf.numPages
  have hnew : f.fd2pageno ∉ l := fun hin => not_hasPage_counter hf (hlive _ hin)
  have hold : ∀ q ∈ l, f.createNewPageHandle.2.pages q = f.pages q := by
    intro q hq
    have hne : q ≠ f.fd2pageno := fun heq => hnew (heq ▸ hq)
    rw [pages_createNewPageHandle, if_neg hne]
  refine ⟨⟨rfl, (hasPage_createNewPageHandle hf).mpr (Or.inr rfl), ?_⟩, hnew, fun p => ?_⟩
  · have hnext : RmPage.nextFreePageNo (f.createNewPageHandle.2.pages f.fd2pageno) = f.hdr.firstFreePageNo := by
      rw [pages_createNewPageHandle, if_pos rfl, RmPage.nextFreePageNo_setBitmap,
        RmPage.nextFreePageNo_setNextFreePageNo (by omega) (by omega)]
    show NextLinks.Path _ _ _ (RmPage.nextFreePageNo (f.createNewPageHandle.2.pages f.fd2pageno)) l
    rw [hnext]
    apply hfree.congr
    · intro q hq
      rw [hold q hq]
    · intro q hq
      exact (hasPage_createNewPageHandle hf).mpr (Or.inl (hlive q hq))
  · rw [List.mem_cons, hmem, hasPage_createNewPageHandle hf]
    by_cases hp : p = f.fd2pageno
    · have hroom : RmPage.HasRoom f.createNewPageHandle.2.hdr (f.createNewPageHandle.2.pages f.fd2pageno) :=
        ⟨0, hf.fits.pos, hasRoom_new f 0⟩
      rw [hp]
      exact iff_of_true (Or.inl rfl) ⟨Or.inr rfl, hroom⟩
    · rw [pages_createNewPageHandle, if_neg hp]
      simp only [hp, false_or, or_false]
      rfl

/-- A file and the list of its free pages. -/
structure Listed (f : RmFile) (p : ℤ) (l : List ℤ) : Prop where
  path : f.FreePath p l
  nodup : l.Nodup
  mem : ∀ q, q ∈ l ↔ f.hasPage q ∧ RmPage.HasRoom f.hdr (f.pages q)

theorem Listed.ok (h : f.Listed f.hdr.firstFreePageNo l) : f.FreeListOk := ⟨l, h.path, h.nodup, h.mem⟩

/-- The links leave no choice for the list. -/
theorem FreePath.ok_iff (h : f.FreePath f.hdr.firstFreePageNo l) :
    f.FreeListOk ↔ l.Nodup ∧ ∀ q, q ∈ l ↔ f.hasPage q ∧ RmPage.HasRoom f.hdr (f.pages q) := by
  constructor
  · intro ⟨l', hpath, hl'⟩
    obtain rfl := h.unique not_hasPage_rmNoPage hpath
    exact hl'
  · intro hl
    exact ⟨l, h, hl⟩

theorem createNewPageHandle_listed (hf : f.Laid) (h : f.Listed f.hdr.firstFreePageNo l) :
    f.createNewPageHandle.2.Listed f.fd2pageno (f.fd2pageno :: l) := by
  obtain ⟨hpath, hnew, hmem⟩ := createNewPageHandle_path hf h.path h.mem
  exact ⟨hpath, List.nodup_cons.mpr ⟨hnew, h.nodup⟩, hmem⟩

/-- The page that an insertion takes is the head of the list. -/
theorem createPageHandle_listed (hf : f.Laid) (h : f.Listed f.hdr.firstFreePageNo l) (hlt : f.hdr.numPages < 2 ^ 31 - 1) :
    f.createPageHandle.2.Laid ∧ f.createPageHandle.2.hdr.firstFreePageNo = f.createPageHandle.1 ∧
      ∃ rest, f.createPageHandle.2.Listed f.createPageHandle.1 (f.createPageHandle.1 :: rest) := by
  have hnew : f.createNewPageHandle.2.Laid ∧ f.createNewPageHandle.2.hdr.firstFreePageNo = f.createNewPageHandle.1 ∧
      ∃ rest, f.createNewPageHandle.2.Listed f.createNewPageHandle.1 (f.createNewPageHandle.1 :: rest) :=
    ⟨createNewPageHandle_laid hf h.path hlt, rfl, l, createNewPageHandle_listed hf h⟩
  rw [createPageHandle_eq]
  rcases h.path.head with ⟨hnone, -⟩ | ⟨hpage, rest, rfl⟩
  · rw [if_neg (hnone ▸ not_hasPage_rmNoPage)]
    exact hnew
  · rw [if_pos hpage]
    exact ⟨hf, rfl, rest, h⟩

/-! ### One page is rewritten -/

theorem freePath_setPage (hnext : RmPage.nextFreePageNo page = RmPage.nextFreePageNo (f.pages pageNo)) :
    (f.setPage pageNo page).FreePath = f.FreePath := by
  have hsame : (fun p => RmPage.nextFreePageNo ((f.setPage pageNo page).pages p)) =
      fun p => RmPage.nextFreePageNo (f.pages p) := by
    funext p
    show RmPage.nextFreePageNo (Function.update f.pages pageNo page p) = _
    by_cases hp : p = pageNo
    · rw [hp, Function.update_self, hnext]
    · rw [Function.update_of_ne hp]
  unfold FreePath
  rw [hsame]
  rfl

theorem Laid.setPage (hf : f.Laid) (hnext : RmPage.nextFreePageNo page < f.hdr.numPages) :
    (f.setPage pageNo page).Laid := by
  refine ⟨hf.fits, hf.slots, hf.header_page, hf.counter, hf.numPages, fun p hp => ?_⟩
  show RmPage.nextFreePageNo (Function.update f.pages pageNo page p) < f.hdr.numPages
  by_cases heq : p = pageNo
  · rw [heq, Function.update_self]
    exact hnext
  · rw [Function.update_of_ne heq]
    exact hf.linked p hp

theorem Laid.setFirstFree (hf : f.Laid) (pageNo : ℤ) : (f.setFirstFree pageNo).Laid :=
  ⟨⟨hf.fits.pos, hf.fits.bits, hf.fits.slots, hf.fits.recordSize⟩, hf.slots, hf.header_page, hf.counter, hf.numPages,
    hf.linked⟩

theorem Laid.writeHdr (hf : f.Laid) : f.writeHdr.Laid :=
  ⟨hf.fits, hf.slots, hf.header_page, hf.counter, hf.numPages, hf.linked⟩

/-- The pages with room after a slot has been filled. -/
theorem hasRoom_setPage_fill (hfits : f.hdr.Fits) (hslot : slotNo < f.hdr.numRecordsPerPage) :
    RmPage.HasRoom f.hdr ((f.setPage pageNo (RmPage.fill f.hdr (f.pages pageNo) slotNo buf)).pages p) ↔
      RmPage.HasRoom f.hdr (f.pages p) ∧ (p = pageNo → ¬RmPage.FillsUp f.hdr (f.pages pageNo) slotNo) := by
  show RmPage.HasRoom f.hdr (Function.update f.pages pageNo _ p) ↔ _
  by_cases hp : p = pageNo
  · rw [hp, Function.update_self, RmPage.hasRoom_fill hfits hslot]
    simp
  · rw [Function.update_of_ne hp]
    simp [hp]

/-- The first page of the list gets a record. -/
theorem fill_head (hf : f.Laid) (h : f.Listed pageNo (pageNo :: l)) (hslot : slotNo < f.hdr.numRecordsPerPage) :
    ((f.setPage pageNo (RmPage.fill f.hdr (f.pages pageNo) slotNo buf)).setFirstFree rmNoPage).FreeListOk ↔
      RmPage.FillsUp f.hdr (f.pages pageNo) slotNo ∧ RmPage.nextFreePageNo (f.pages pageNo) = rmNoPage := by
  obtain ⟨hpage, hroom⟩ := (h.mem pageNo).mp List.mem_cons_self
  have hrest : f.FreePath (RmPage.nextFreePageNo (f.pages pageNo)) l := h.path.2.2
  have hlast : RmPage.nextFreePageNo (f.pages pageNo) = rmNoPage ↔ l = [] := by
    rcases hrest.head with ⟨hnone, hnil⟩ | ⟨hnextPage, rest', hcons⟩
    · exact iff_of_true hnone hnil
    · apply iff_of_false
      · intro heq
        exact not_hasPage_rmNoPage (heq ▸ hnextPage)
      · rw [hcons]
        exact List.cons_ne_nil _ _
  have hempty : ((f.setPage pageNo (RmPage.fill f.hdr (f.pages pageNo) slotNo buf)).setFirstFree rmNoPage).FreePath
      rmNoPage [] := rfl
  have hhas : ∀ q, RmPage.HasRoom f.hdr ((f.setPage pageNo (RmPage.fill f.hdr (f.pages pageNo) slotNo buf)).pages q) ↔ _ :=
    fun q => hasRoom_setPage_fill hf.fits hslot
  rw [hempty.ok_iff, hlast]
  constructor
  · intro ⟨_, hnone⟩
    have hno : ∀ q, f.hasPage q → ¬RmPage.HasRoom f.hdr
        ((f.setPage pageNo (RmPage.fill f.hdr (f.pages pageNo) slotNo buf)).pages q) := fun q hq hroom' =>
      List.not_mem_nil ((hnone q).mpr ⟨hq, hroom'⟩)
    constructor
    · by_contra hnot
      exact hno pageNo hpage ((hhas pageNo).mpr ⟨hroom, fun _ => hnot⟩)
    · apply List.eq_nil_iff_forall_not_mem.mpr
      intro q hq
      obtain ⟨hqpage, hqroom⟩ := (h.mem q).mp (List.mem_cons_of_mem _ hq)
      have hne : q ≠ pageNo := fun heq => (List.nodup_cons.mp h.nodup).1 (heq ▸ hq)
      exact hno q hqpage ((hhas q).mpr ⟨hqroom, fun heq => absurd heq hne⟩)
  · intro ⟨hfills, hnil⟩
    refine ⟨List.nodup_nil, fun q => iff_of_false List.not_mem_nil ?_⟩
    intro ⟨hq, hroom'⟩
    obtain ⟨hqroom, hnot⟩ := (hhas q).mp hroom'
    have hmem := (h.mem q).mpr ⟨hq, hqroom⟩
    rw [hnil, List.mem_singleton] at hmem
    exact hnot hmem hfills

/-- A page gets a record, and the list stays as it is. -/
theorem fill_keep (hf : f.Laid) (h : f.Listed f.hdr.firstFreePageNo l) (hpage : f.hasPage pageNo)
    (hslot : slotNo < f.hdr.numRecordsPerPage) :
    (f.setPage pageNo (RmPage.fill f.hdr (f.pages pageNo) slotNo buf)).FreeListOk ↔
      ¬RmPage.FillsUp f.hdr (f.pages pageNo) slotNo := by
  have hpath : (f.setPage pageNo (RmPage.fill f.hdr (f.pages pageNo) slotNo buf)).FreePath f.hdr.firstFreePageNo l := by
    rw [freePath_setPage RmPage.nextFreePageNo_fill]
    exact h.path
  have hhas : ∀ q, RmPage.HasRoom f.hdr ((f.setPage pageNo (RmPage.fill f.hdr (f.pages pageNo) slotNo buf)).pages q) ↔ _ :=
    fun q => hasRoom_setPage_fill hf.fits hslot
  rw [FreePath.ok_iff hpath]
  constructor
  · intro ⟨_, hmem⟩ hfills
    have hroom : RmPage.HasRoom f.hdr (f.pages pageNo) := ⟨slotNo, hslot, hfills.1⟩
    have hin := (h.mem pageNo).mpr ⟨hpage, hroom⟩
    exact ((hhas pageNo).mp ((hmem pageNo).mp hin).2).2 rfl hfills
  · intro hnot
    refine ⟨h.nodup, fun q => ?_⟩
    rw [h.mem]
    apply and_congr_right
    intro _
    show _ ↔ RmPage.HasRoom f.hdr ((f.setPage pageNo (RmPage.fill f.hdr (f.pages pageNo) slotNo buf)).pages q)
    rw [hhas]
    exact (and_iff_left fun _ => hnot).symm

/-! ### The four calls -/

open SpaceCall

/-- The page that an insertion leaves. -/
def filledPage (f : RmFile) (buf : Bytes) : Bytes :=
  RmPage.fill f.createPageHandle.2.hdr f.freePage f.freeSlot (buf.take f.createPageHandle.2.hdr.recordSize)

theorem insertRecord_eq (hslot : f.freeSlot < f.createPageHandle.2.hdr.numRecordsPerPage) : (f.insertRecord buf).2 =
    if RmPage.numRecords (f.filledPage buf) = f.createPageHandle.2.hdr.numRecordsPerPage then
      (f.createPageHandle.2.setPage f.createPageHandle.1 (f.filledPage buf)).setFirstFree rmNoPage
    else f.createPageHandle.2.setPage f.createPageHandle.1 (f.filledPage buf) := by
  unfold insertRecord
  unfold freeSlot at hslot
  simp only [if_pos hslot]
  rfl

theorem keeps_insertRecord_iff : KeepsFreeList (.insertRecord buf) f ↔
    (int32 (RmPage.numRecords f.freePage + 1) = f.createPageHandle.2.hdr.numRecordsPerPage ↔
      RmPage.FillsUp f.createPageHandle.2.hdr f.freePage f.freeSlot) ∧
    (RmPage.FillsUp f.createPageHandle.2.hdr f.freePage f.freeSlot → RmPage.nextFreePageNo f.freePage = rmNoPage) :=
  Iff.rfl

theorem insertRecord_freeList (buf : Bytes) (hf : f.Laid) (h : f.Listed f.hdr.firstFreePageNo l)
    (hlt : f.hdr.numPages < 2 ^ 31 - 1) :
    ((f.insertRecord buf).2.FreeListOk ↔ KeepsFreeList (.insertRecord buf) f) ∧ (f.insertRecord buf).2.Laid := by
  obtain ⟨hlaid, hfirst, rest, hlisted⟩ := createPageHandle_listed hf h hlt
  obtain ⟨hpage, hroom⟩ := (hlisted.mem f.createPageHandle.1).mp List.mem_cons_self
  have hfree : f.freeSlot < f.createPageHandle.2.hdr.numRecordsPerPage := (Bitmap.firstBit_false hroom).1
  rw [insertRecord_eq hfree, keeps_insertRecord_iff]
  unfold filledPage freePage
  generalize f.createPageHandle.2 = f₁ at *
  generalize f.createPageHandle.1 = pageNo at *
  rw [RmPage.numRecords_fill_int32]
  have hlaid' : (f₁.setPage pageNo (RmPage.fill f₁.hdr (f₁.pages pageNo) f.freeSlot (buf.take f₁.hdr.recordSize))).Laid := by
    apply hlaid.setPage
    rw [RmPage.nextFreePageNo_fill]
    exact hlaid.linked pageNo hpage
  by_cases hfull : int32 (RmPage.numRecords (f₁.pages pageNo) + 1) = f₁.hdr.numRecordsPerPage
  · rw [if_pos hfull, fill_head hlaid hlisted hfree]
    refine ⟨⟨?_, ?_⟩, hlaid'.setFirstFree _⟩
    · intro ⟨hfills, hlast⟩
      exact ⟨iff_of_true hfull hfills, fun _ => hlast⟩
    · intro ⟨hiff, hlast⟩
      exact ⟨hiff.mp hfull, hlast (hiff.mp hfull)⟩
  · rw [if_neg hfull, fill_keep hlaid (hfirst ▸ hlisted) hpage hfree]
    refine ⟨⟨?_, ?_⟩, hlaid'⟩
    · intro hnot
      exact ⟨iff_of_false hfull hnot, fun hfills => absurd hfills hnot⟩
    · intro ⟨hiff, _⟩ hfills
      exact hfull (hiff.mpr hfills)

/-- No page names the new one as the next. -/
theorem next_ne_new (hf : f.Laid) (hfree : f.FreePath f.hdr.firstFreePageNo l) (hp : f.createNewPageHandle.2.hasPage p) :
    RmPage.nextFreePageNo (f.createNewPageHandle.2.pages p) ≠ f.fd2pageno := by
  have hrange := hfree.range hf
  have hnum := hf.numPages
  rw [pages_createNewPageHandle, hf.counter]
  split
  · rw [RmPage.nextFreePageNo_setBitmap, RmPage.nextFreePageNo_setNextFreePageNo (by omega) (by omega)]
    omega
  · rename_i hne
    rw [← hf.counter] at hne
    have hold := hf.linked p (((hasPage_createNewPageHandle hf).mp hp).resolve_right hne)
    omega

/-- A full page takes the pages before it out of the list, and so the new one. -/
theorem not_ok_of_fillsUp (hf : f.Laid) (h : f.Listed f.hdr.firstFreePageNo l) (hpage : f.createNewPageHandle.2.hasPage pageNo)
    (hslot : slotNo < f.hdr.numRecordsPerPage) (buf : Bytes) :
    ¬(((f.createNewPageHandle.2.setPage pageNo (RmPage.fill f.createNewPageHandle.2.hdr
      (f.createNewPageHandle.2.pages pageNo) slotNo buf)).setFirstFree
        (RmPage.nextFreePageNo (f.createNewPageHandle.2.pages pageNo)))).FreeListOk := by
  have hfits : f.createNewPageHandle.2.hdr.Fits := ⟨hf.fits.pos, hf.fits.bits, hf.fits.slots, hf.fits.recordSize⟩
  have hnew : f.createNewPageHandle.2.hasPage f.fd2pageno := (hasPage_createNewPageHandle hf).mpr (Or.inr rfl)
  have hnext : ∀ q, f.createNewPageHandle.2.hasPage q →
      RmPage.nextFreePageNo (f.createNewPageHandle.2.pages q) ≠ f.fd2pageno := fun q => next_ne_new hf h.path
  have hfree : ∀ i, Bitmap.isSet (RmPage.bitmap f.createNewPageHandle.2.hdr
      (f.createNewPageHandle.2.pages f.fd2pageno)) i = false := hasRoom_new f
  have hslots : 1 < f.createNewPageHandle.2.hdr.numRecordsPerPage := hf.slots
  have hslot' : slotNo < f.createNewPageHandle.2.hdr.numRecordsPerPage := hslot
  generalize f.createNewPageHandle.2 = f₁ at *
  intro ⟨l', hpath, _, hmem⟩
  have hroom : RmPage.HasRoom f₁.hdr
      (Function.update f₁.pages pageNo (RmPage.fill f₁.hdr (f₁.pages pageNo) slotNo buf) f.fd2pageno) := by
    by_cases heq : f.fd2pageno = pageNo
    · obtain ⟨i, hi, hne⟩ : ∃ i < f₁.hdr.numRecordsPerPage, i ≠ slotNo := by
        by_cases hzero : slotNo = 0
        · exact ⟨1, hslots, by omega⟩
        · exact ⟨0, by omega, by omega⟩
      rw [← heq, Function.update_self]
      refine ⟨i, hi, ?_⟩
      rw [RmPage.isSet_fill hfits hslot', decide_eq_false hne, hfree, Bool.or_false]
    · rw [Function.update_of_ne heq]
      exact ⟨0, by omega, hfree 0⟩
  have hin : f.fd2pageno ∈ l' := (hmem f.fd2pageno).mpr ⟨hnew, hroom⟩
  have hsame : (f₁.setPage pageNo (RmPage.fill f₁.hdr (f₁.pages pageNo) slotNo buf)).FreePath = f₁.FreePath :=
    freePath_setPage RmPage.nextFreePageNo_fill
  have hpath' : (f₁.setPage pageNo (RmPage.fill f₁.hdr (f₁.pages pageNo) slotNo buf)).FreePath
      (RmPage.nextFreePageNo (f₁.pages pageNo)) l' := hpath
  rw [hsame] at hpath'
  exact NextLinks.Path.notMem hpath' (hnext pageNo hpage) hnext hin

theorem insertRecordAt_eq (hpage : f.createNewPageHandle.2.hasPage rid.pageNo) : f.insertRecordAt rid buf =
    let f₁ := f.createNewPageHandle.2
    let page := RmPage.fill f₁.hdr (f₁.pages rid.pageNo) rid.slotNo.toNat (buf.take f₁.hdr.recordSize)
    if RmPage.numRecords page = f₁.hdr.numRecordsPerPage then
      (f₁.setPage rid.pageNo page).setFirstFree (RmPage.nextFreePageNo page)
    else f₁.setPage rid.pageNo page := by
  unfold insertRecordAt
  simp only [fetchPageHandle_eq hpage]
  rfl

theorem insertRecordAt_freeList (buf : Bytes) (hf : f.Laid) (h : f.Listed f.hdr.firstFreePageNo l)
    (hlt : f.hdr.numPages < 2 ^ 31 - 1)
    (hslot : 0 ≤ rid.slotNo ∧ rid.slotNo < f.hdr.numRecordsPerPage) :
    ((f.insertRecordAt rid buf).FreeListOk ↔ KeepsFreeList (.insertRecordAt rid buf) f) ∧
      (KeepsFreeList (.insertRecordAt rid buf) f → (f.insertRecordAt rid buf).Laid) := by
  have hlaid := createNewPageHandle_laid hf h.path hlt
  have hlisted := createNewPageHandle_listed hf h
  have hslot' : rid.slotNo.toNat < f.hdr.numRecordsPerPage := by omega
  have hkeeps : KeepsFreeList (.insertRecordAt rid buf) f ↔ (f.createNewPageHandle.2.hasPage rid.pageNo →
      int32 (RmPage.numRecords (f.createNewPageHandle.2.pages rid.pageNo) + 1) ≠
          f.createNewPageHandle.2.hdr.numRecordsPerPage ∧
        ¬RmPage.FillsUp f.createNewPageHandle.2.hdr (f.createNewPageHandle.2.pages rid.pageNo) rid.slotNo.toNat) := Iff.rfl
  rw [hkeeps]
  by_cases hpage : f.createNewPageHandle.2.hasPage rid.pageNo
  · rw [insertRecordAt_eq hpage]
    have hbad := not_ok_of_fillsUp hf h hpage hslot' (buf.take f.createNewPageHandle.2.hdr.recordSize)
    have hfirst : f.createNewPageHandle.2.hdr.firstFreePageNo = f.fd2pageno := rfl
    have hslot'' : rid.slotNo.toNat < f.createNewPageHandle.2.hdr.numRecordsPerPage := hslot'
    generalize f.createNewPageHandle.2 = f₁ at *
    dsimp only
    rw [RmPage.numRecords_fill_int32, RmPage.nextFreePageNo_fill]
    by_cases hfull : int32 (RmPage.numRecords (f₁.pages rid.pageNo) + 1) = f₁.hdr.numRecordsPerPage
    · rw [if_pos hfull]
      exact ⟨iff_of_false hbad fun hall => (hall hpage).1 hfull, fun hall => absurd hfull (hall hpage).1⟩
    · rw [if_neg hfull, fill_keep hlaid (hfirst ▸ hlisted) hpage hslot'']
      refine ⟨⟨fun hnot _ => ⟨hfull, hnot⟩, fun hall => (hall hpage).2⟩, fun _ => ?_⟩
      apply hlaid.setPage
      rw [RmPage.nextFreePageNo_fill]
      exact hlaid.linked rid.pageNo hpage
  · have hnothing : f.insertRecordAt rid buf = f.createNewPageHandle.2 := by
      have hout : rid.pageNo < rmFirstRecordPage ∨ f.createNewPageHandle.2.hdr.numPages ≤ rid.pageNo := by
        unfold hasPage at hpage
        omega
      unfold insertRecordAt fetchPageHandle
      simp only [if_pos hout]
    rw [hnothing]
    exact ⟨iff_of_true hlisted.ok fun hin => absurd hin hpage, fun _ => hlaid⟩

/-- A page that gives up a record goes to the front of the list, where it must not be already. -/
theorem release_freeList (hf : f.Laid) (h : f.Listed f.hdr.firstFreePageNo l) (hpage : f.hasPage pageNo)
    (hroom : RmPage.HasRoom f.hdr page) :
    ((f.setPage pageNo (RmPage.setNextFreePageNo page f.hdr.firstFreePageNo)).setFirstFree pageNo).FreeListOk ↔
      ¬RmPage.HasRoom f.hdr (f.pages pageNo) := by
  have hrange := h.path.range hf
  have hnum := hf.numPages
  have hlink : RmPage.nextFreePageNo (RmPage.setNextFreePageNo page f.hdr.firstFreePageNo) = f.hdr.firstFreePageNo :=
    RmPage.nextFreePageNo_setNextFreePageNo (by omega) (by omega)
  have hroom' : RmPage.HasRoom f.hdr (RmPage.setNextFreePageNo page f.hdr.firstFreePageNo) :=
    (RmPage.hasRoom_congr RmPage.bitmap_setNextFreePageNo).mpr hroom
  generalize RmPage.setNextFreePageNo page f.hdr.firstFreePageNo = page' at *
  have hnext : ∀ q, q ≠ pageNo → RmPage.nextFreePageNo (Function.update f.pages pageNo page' q) =
      RmPage.nextFreePageNo (f.pages q) := by
    intro q hq
    rw [Function.update_of_ne hq]
  have hself : RmPage.nextFreePageNo (Function.update f.pages pageNo page' pageNo) = f.hdr.firstFreePageNo := by
    rw [Function.update_self, hlink]
  have hlive := NextLinks.Path.forall_live h.path
  constructor
  · -- the way from the page comes back to it
    intro ⟨l', hpath, hnodup, hmem⟩ hlisted
    obtain ⟨pre, post, rfl⟩ := List.append_of_mem ((h.mem pageNo).mpr ⟨hpage, hlisted⟩)
    have hpre : ∀ q ∈ pre, q ≠ pageNo := by
      rintro q hq rfl
      exact (List.nodup_append.mp h.nodup).2.2 q hq q List.mem_cons_self rfl
    rcases hpath.head with ⟨hnone, -⟩ | ⟨-, rest, rfl⟩
    · have heq : pageNo = rmNoPage := hnone
      exact not_hasPage_rmNoPage (heq ▸ hpage)
    · have hrest := hpath.2.2
      dsimp only at hrest
      have hback : pageNo ∈ rest := by
        apply NextLinks.Path.mem_of_append not_hasPage_rmNoPage h.path _ _ (hself ▸ hrest)
        · intro r hr
          exact hnext r (hpre r hr)
        · intro r hr
          apply hlive
          rw [List.append_cons]
          exact List.mem_append_left _ hr
      exact (List.nodup_cons.mp hnodup).1 hback
  · intro hnot
    have hnew : pageNo ∉ l := fun hin => hnot ((h.mem pageNo).mp hin).2
    have hne : ∀ q ∈ l, q ≠ pageNo := fun q hq heq => hnew (heq ▸ hq)
    have hpath : ((f.setPage pageNo page').setFirstFree pageNo).FreePath pageNo (pageNo :: l) := by
      refine ⟨rfl, hpage, ?_⟩
      show NextLinks.Path _ _ _ (RmPage.nextFreePageNo (Function.update f.pages pageNo page' pageNo)) l
      rw [hself]
      exact h.path.congr (fun q hq => hnext q (hne q hq)) hlive
    refine ⟨pageNo :: l, hpath, List.nodup_cons.mpr ⟨hnew, h.nodup⟩, fun q => ?_⟩
    show _ ↔ f.hasPage q ∧ RmPage.HasRoom f.hdr (Function.update f.pages pageNo page' q)
    rw [List.mem_cons]
    by_cases hq : q = pageNo
    · rw [hq, Function.update_self]
      exact iff_of_true (Or.inl rfl) ⟨hpage, hroom'⟩
    · rw [Function.update_of_ne hq, h.mem]
      exact or_iff_right hq

/-- A page that gives up a record and is not put into the list must be there already. -/
theorem keep_freeList (h : f.Listed f.hdr.firstFreePageNo l) (hpage : f.hasPage pageNo) (hroom : RmPage.HasRoom f.hdr page)
    (hnext : RmPage.nextFreePageNo page = RmPage.nextFreePageNo (f.pages pageNo)) :
    (f.setPage pageNo page).FreeListOk ↔ RmPage.HasRoom f.hdr (f.pages pageNo) := by
  have hpath : (f.setPage pageNo page).FreePath f.hdr.firstFreePageNo l := by
    rw [freePath_setPage hnext]
    exact h.path
  have hhas : ∀ q, (f.setPage pageNo page).hasPage q ∧ RmPage.HasRoom f.hdr ((f.setPage pageNo page).pages q) ↔
      f.hasPage q ∧ (q = pageNo ∨ RmPage.HasRoom f.hdr (f.pages q)) := by
    intro q
    apply and_congr_right
    intro _
    show RmPage.HasRoom f.hdr (Function.update f.pages pageNo page q) ↔ _
    by_cases hq : q = pageNo
    · rw [hq, Function.update_self]
      exact iff_of_true hroom (Or.inl rfl)
    · rw [Function.update_of_ne hq]
      exact (or_iff_right hq).symm
  rw [FreePath.ok_iff hpath]
  constructor
  · intro ⟨_, hmem⟩
    have hin : pageNo ∈ l := (hmem pageNo).mpr ((hhas pageNo).mpr ⟨hpage, Or.inl rfl⟩)
    exact ((h.mem pageNo).mp hin).2
  · intro hlisted
    refine ⟨h.nodup, fun q => ?_⟩
    rw [h.mem]
    show _ ↔ (f.setPage pageNo page).hasPage q ∧ RmPage.HasRoom f.hdr ((f.setPage pageNo page).pages q)
    rw [hhas]
    apply and_congr_right
    intro _
    constructor
    · exact Or.inr
    · intro hor
      rcases hor with rfl | hq
      · exact hlisted
      · exact hq

theorem deleteRecord_freeList (hf : f.Laid) (h : f.Listed f.hdr.firstFreePageNo l)
    (hslot : 0 ≤ rid.slotNo ∧ rid.slotNo < f.hdr.numRecordsPerPage) :
    ((f.deleteRecord rid).FreeListOk ↔ KeepsFreeList (.deleteRecord rid) f) ∧ (f.deleteRecord rid).Laid := by
  obtain ⟨pageNo, slotNo⟩ := rid
  dsimp only at hslot
  obtain ⟨slotNo, rfl⟩ := Int.eq_ofNat_of_zero_le hslot.1
  have hin : slotNo < f.hdr.numRecordsPerPage := by omega
  have hkeeps : KeepsFreeList (.deleteRecord ⟨pageNo, slotNo⟩) f ↔ (f.hasPage pageNo →
      Bitmap.isSet (RmPage.bitmap f.hdr (f.pages pageNo)) slotNo = true →
        (int32 (RmPage.numRecords (f.pages pageNo) - 1) < f.hdr.numRecordsPerPage ↔
          ¬RmPage.HasRoom f.hdr (f.pages pageNo))) := Iff.rfl
  rw [hkeeps]
  by_cases hpage : f.hasPage pageNo
  · by_cases hused : Bitmap.isSet (RmPage.bitmap f.hdr (f.pages pageNo)) slotNo = true
    · have hroom : RmPage.HasRoom f.hdr (RmPage.clear f.hdr (f.pages pageNo) slotNo) := RmPage.hasRoom_clear hf.fits hin
      have hclear : RmPage.numRecords (RmPage.clear f.hdr (f.pages pageNo) slotNo) =
          int32 (RmPage.numRecords (f.pages pageNo) - 1) := RmPage.numRecords_clear_int32
      by_cases hlt : int32 (RmPage.numRecords (f.pages pageNo) - 1) < f.hdr.numRecordsPerPage
      · rw [deleteRecord_eq hpage hused (hclear ▸ hlt)]
        have hrange := h.path.range hf
        have hnum := hf.numPages
        constructor
        · rw [show ∀ f' : RmFile, f'.writeHdr.FreeListOk ↔ f'.FreeListOk from fun _ => Iff.rfl,
            release_freeList hf h hpage hroom]
          exact ⟨fun hnot _ _ => iff_of_true hlt hnot, fun hall => (hall hpage hused).mp hlt⟩
        · apply Laid.writeHdr
          apply Laid.setFirstFree
          apply hf.setPage
          rw [RmPage.nextFreePageNo_setNextFreePageNo (by omega) (by omega)]
          exact hrange.2
      · have hkept : f.deleteRecord ⟨pageNo, slotNo⟩ = f.setPage pageNo (RmPage.clear f.hdr (f.pages pageNo) slotNo) := by
          have hnotLt : ¬RmPage.numRecords (RmPage.clear f.hdr (f.pages pageNo) slotNo) < f.hdr.numRecordsPerPage :=
            hclear ▸ hlt
          unfold deleteRecord
          simp only [fetchPageHandle_eq hpage, Int.toNat_natCast, hused, if_true]
          exact if_neg hnotLt
        rw [hkept, keep_freeList h hpage hroom RmPage.nextFreePageNo_clear]
        constructor
        · constructor
          · intro hbefore _ _
            exact iff_of_false hlt (not_not_intro hbefore)
          · intro hall
            by_contra hnot
            exact hlt ((hall hpage hused).mpr hnot)
        · apply hf.setPage
          rw [RmPage.nextFreePageNo_clear]
          exact hf.linked pageNo hpage
    · have hnothing : f.deleteRecord ⟨pageNo, slotNo⟩ = f := by
        unfold deleteRecord
        simp only [fetchPageHandle_eq hpage, Int.toNat_natCast, hused]
        rfl
      rw [hnothing]
      exact ⟨iff_of_true h.ok fun _ hset => absurd hset hused, hf⟩
  · have hnothing : f.deleteRecord ⟨pageNo, slotNo⟩ = f := by
      unfold deleteRecord
      rw [fetchPageHandle_eq_none hpage]
    rw [hnothing]
    exact ⟨iff_of_true h.ok fun hin => absurd hin hpage, hf⟩

theorem updateRecord_freeList (rid : Rid) (buf : Bytes) (hf : f.Laid) (h : f.Listed f.hdr.firstFreePageNo l) :
    (f.updateRecord rid buf).FreeListOk ∧ (f.updateRecord rid buf).Laid := by
  by_cases hpage : f.hasPage rid.pageNo
  · unfold updateRecord
    rw [fetchPageHandle_eq hpage]
    dsimp only
    generalize buf.take f.hdr.recordSize = bytes
    have hnext : RmPage.nextFreePageNo (RmPage.setSlot f.hdr (f.pages rid.pageNo) rid.slotNo.toNat bytes) =
        RmPage.nextFreePageNo (f.pages rid.pageNo) := RmPage.nextFreePageNo_setSlot
    constructor
    · have hpath : (f.setPage rid.pageNo (RmPage.setSlot f.hdr (f.pages rid.pageNo) rid.slotNo.toNat bytes)).FreePath
          f.hdr.firstFreePageNo l := by
        rw [freePath_setPage hnext]
        exact h.path
      refine (FreePath.ok_iff hpath).mpr ⟨h.nodup, fun q => ?_⟩
      rw [h.mem]
      apply and_congr_right
      intro _
      show _ ↔ RmPage.HasRoom f.hdr (Function.update f.pages rid.pageNo _ q)
      by_cases hq : q = rid.pageNo
      · rw [hq, Function.update_self, RmPage.hasRoom_congr RmPage.bitmap_setSlot]
      · rw [Function.update_of_ne hq]
    · apply hf.setPage
      rw [hnext]
      exact hf.linked rid.pageNo hpage
  · unfold updateRecord
    rw [fetchPageHandle_eq_none hpage]
    exact ⟨h.ok, hf⟩

/-! ### Runs -/

theorem step_freeList {call : SpaceCall} (hf : f.Laid) (h : f.Listed f.hdr.firstFreePageNo l) (hallowed : call.Allowed f) :
    ((call.step f).FreeListOk ↔ call.KeepsFreeList f) ∧ (call.KeepsFreeList f → (call.step f).Laid) := by
  cases call with
  | insertRecord buf =>
    obtain ⟨hiff, hlaid⟩ := insertRecord_freeList buf hf h hallowed
    exact ⟨hiff, fun _ => hlaid⟩
  | insertRecordAt rid buf => exact insertRecordAt_freeList buf hf h hallowed.2 hallowed.1
  | deleteRecord rid =>
    obtain ⟨hiff, hlaid⟩ := deleteRecord_freeList hf h hallowed
    exact ⟨hiff, fun _ => hlaid⟩
  | updateRecord rid buf =>
    obtain ⟨hok, hlaid⟩ := updateRecord_freeList rid buf hf h
    exact ⟨iff_of_true hok trivial, fun _ => hlaid⟩

/-- The list is right after every call just when every call keeps it. -/
theorem throughout_freeList_iff (hf : f.Laid) (hok : f.FreeListOk) {calls : List SpaceCall}
    (hallowed : Runs.AllMeet SpaceCall.machine SpaceCall.Allowed calls f) :
    Runs.Throughout SpaceCall.machine (fun _ _ f' => f'.FreeListOk) calls f ↔
      Runs.AllMeet SpaceCall.machine SpaceCall.KeepsFreeList calls f := by
  have hgood : ∀ (f : RmFile) (call : SpaceCall), f.Laid ∧ f.FreeListOk → call.Allowed f → call.KeepsFreeList f →
      ∃ f', call.machine f = some f' ∧ f'.FreeListOk ∧ f'.Laid ∧ f'.FreeListOk := by
    intro f call ⟨hf, l, hpath, hnodup, hmem⟩ hallowed hkeeps
    obtain ⟨hiff, hlaid⟩ := step_freeList hf ⟨hpath, hnodup, hmem⟩ hallowed
    exact ⟨_, rfl, hiff.mpr hkeeps, hlaid hkeeps, hiff.mpr hkeeps⟩
  have hbad : ∀ (f : RmFile) (call : SpaceCall), f.Laid ∧ f.FreeListOk → call.Allowed f → ¬call.KeepsFreeList f →
      ∀ f', call.machine f = some f' → ¬f'.FreeListOk := by
    intro f call ⟨hf, l, hpath, hnodup, hmem⟩ hallowed hnot f' hstep hok
    obtain rfl := Option.some.inj hstep
    exact hnot ((step_freeList hf ⟨hpath, hnodup, hmem⟩ hallowed).1.mp hok)
  exact Runs.throughout_iff_of_allowed hgood hbad calls ⟨hf, hok⟩ hallowed

/-- A new file has no pages. -/
theorem openFile_freeList {recordSize : ℤ} {diskHdr : Bytes} (hcreate : createFile recordSize = some diskHdr)
    (pages : ℤ → Bytes) : (openFile diskHdr pages).Laid ∧ (openFile diskHdr pages).FreeListOk := by
  have hcoh := openFile_coherent hcreate pages
  unfold createFile at hcreate
  split at hcreate
  · exact absurd hcreate (by simp)
  · rename_i hsize
    have hfits : (createHdr recordSize.toNat).Fits := fits_create (by omega)
    obtain rfl := Option.some.inj hcreate
    have hopen : openFile (createHdr recordSize.toNat).encode pages =
        { hdr := createHdr recordSize.toNat, pages, diskHdr := (createHdr recordSize.toNat).encode, fd2pageno := 1 } := by
      rw [openFile, decode_encode hfits (by simp [createHdr]) (by simp [createHdr, rmNoPage])]
      rfl
    have hno : ∀ p, ¬(openFile (createHdr recordSize.toNat).encode pages).hasPage p := by
      intro p hp
      rw [hopen] at hp
      have hnone : 1 ≤ p ∧ p < 1 := hp
      omega
    constructor
    · have hslots : 1 < (8 * (pageSize - 1 - 20) + 1) / (1 + recordSize.toNat * 8) := by
        have hle : recordSize.toNat ≤ rmMaxRecordSize := by omega
        unfold rmMaxRecordSize at hle
        rw [Nat.lt_div_iff_mul_lt (by omega), pageSize]
        omega
      refine ⟨hcoh.fits, ?_, hcoh.header_page, hcoh.counter, hcoh.numPages_lt, fun p hp => absurd hp (hno p)⟩
      rw [hopen]
      exact hslots
    · refine ⟨[], ?_, List.nodup_nil, fun p => iff_of_false List.not_mem_nil fun hp => hno p hp.1⟩
      rw [hopen]
      rfl

/-- On a new file, the list of free pages is right in every state just when every insertion that fills a page
finds no other one in the list, no insertion at a given place fills a page, and every deletion takes from
a full page. -/
theorem freeList_iff {recordSize : ℤ} {diskHdr : Bytes} (hcreate : createFile recordSize = some diskHdr)
    (pages : ℤ → Bytes) {calls : List SpaceCall}
    (hallowed : Runs.AllMeet SpaceCall.machine SpaceCall.Allowed calls (openFile diskHdr pages)) :
    ((openFile diskHdr pages).FreeListOk ∧
      Runs.Throughout SpaceCall.machine (fun _ _ f' => f'.FreeListOk) calls (openFile diskHdr pages)) ↔
        Runs.AllMeet SpaceCall.machine SpaceCall.KeepsFreeList calls (openFile diskHdr pages) := by
  obtain ⟨hlaid, hok⟩ := openFile_freeList hcreate pages
  rw [and_iff_right hok]
  exact throughout_freeList_iff hlaid hok hallowed

/-- A page of seven records of 512 bytes is filled, and then one of them is deleted. -/
def fullPageCalls : List SpaceCall :=
  List.replicate 7 (.insertRecord (List.replicate 512 1)) ++ [.deleteRecord ⟨1, 3⟩]

theorem freeList_fullPage : (openFile (createHdr 512).encode fun _ => []).FreeListOk ∧
    Runs.Throughout SpaceCall.machine (fun _ _ f' => f'.FreeListOk) fullPageCalls
      (openFile (createHdr 512).encode fun _ => []) := by
  have hcreate : createFile 512 = some (createHdr 512).encode := rfl
  have hallowed : Runs.AllMeet SpaceCall.machine SpaceCall.Allowed fullPageCalls
      (openFile (createHdr 512).encode fun _ => []) := by decide +kernel
  have hkeeps : Runs.AllMeet SpaceCall.machine SpaceCall.KeepsFreeList fullPageCalls
      (openFile (createHdr 512).encode fun _ => []) := by decide +kernel
  exact (freeList_iff hcreate (fun _ => []) hallowed).mpr hkeeps

/-- A record is deleted from a page that has room already: the page is its own successor now. -/
theorem not_freeList_twice : ∃ calls, Runs.AllMeet SpaceCall.machine SpaceCall.Allowed calls
      (openFile (createHdr 512).encode fun _ => []) ∧
    ¬Runs.Throughout SpaceCall.machine (fun _ _ f' => f'.FreeListOk) calls (openFile (createHdr 512).encode fun _ => []) := by
  have hcreate : createFile 512 = some (createHdr 512).encode := rfl
  obtain ⟨hlaid, hok⟩ := openFile_freeList hcreate fun _ => []
  have hallowed : Runs.AllMeet SpaceCall.machine SpaceCall.Allowed
      [.insertRecord (List.replicate 512 1), .deleteRecord ⟨1, 0⟩] (openFile (createHdr 512).encode fun _ => []) := by
    apply Runs.allMeet_cons (by decide +kernel)
    apply Runs.allMeet_cons (by decide +kernel)
    trivial
  refine ⟨_, hallowed, fun hthroughout => ?_⟩
  have hkeeps := (throughout_freeList_iff hlaid hok hallowed).mp hthroughout
  have hdelete := (hkeeps.2 _ rfl).1
  revert hdelete
  decide +kernel

end RmFile
end Rmdb
