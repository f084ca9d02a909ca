import Mathlib.Data.Int.Notation
import Mathlib.Logic.Function.Basic
import Mathlib.Algebra.Order.Group.Int
import Mathlib.Data.List.Nodup
import Mathlib.Tactic.Common
import Rmdb.Common.Defs

/-! The record file of a table: pages of slots with a bitmap and a list of pages that have
room. The two maps below are indexed by record identifier; `record` and `isRecord` read them
through the page check that `fetch_page_handle` makes. -/
namespace Rmdb

def rmNoPage : ℤ := -2
def rmFirstRecordPage : ℤ := 1
def rmMaxRecordSize : ℕ := 512

/-- `sizeof(TupleMeta)` with its padding. -/
def tupleMetaSize : ℕ := 16

def invalidTxnId : ℤ := -1

structure TupleMeta where
  ts : ℤ
  isDeleted : Bool
deriving DecidableEq, Repr

/-- The column data of a row. The last three fields are not in the file: they say which
transaction wrote these bytes, and to which row. -/
structure RowData where
  bytes : Bytes
  writer : ℤ
  tab : String
  rid : Rid
deriving DecidableEq, Repr

/-- What a slot holds. `writer` is not in the file: it is the transaction that last wrote the
whole record, header and data. -/
structure RmRecord where
  tupleMeta : TupleMeta
  row : RowData
  writer : ℤ
deriving DecidableEq, Repr

/-- A slot of zero bytes. -/
def zeroRecord (recordSize : ℕ) : RmRecord where
  tupleMeta := ⟨0, false⟩
  row := ⟨List.replicate (recordSize - tupleMetaSize) 0, invalidTxnId, "", ⟨-1, -1⟩⟩
  writer := invalidTxnId

structure RmFileHandle where
  recordSize : ℕ
  numPages : ℤ
  numRecordsPerPage : ℕ
  firstFreePageNo : ℤ
  slots : Rid → RmRecord
  bitmap : Rid → Bool
  numRecords : ℤ → ℤ
  nextFreePageNo : ℤ → ℤ
  /-- Page 0 is the file header. -/
  header_page : rmFirstRecordPage ≤ numPages

namespace RmFileHandle

/-- The file that `create_file` writes. -/
def create (recordSize : ℕ) : RmFileHandle where
  recordSize := recordSize
  numPages := 1
  numRecordsPerPage := (8 * (pageSize - 1 - 20) + 1) / (1 + recordSize * 8)
  firstFreePageNo := rmNoPage
  slots _ := zeroRecord recordSize
  bitmap _ := false
  numRecords _ := 0
  nextFreePageNo _ := 0
  header_page := le_rfl

variable (fh : RmFileHandle)

def hasPage (pageNo : ℤ) : Prop := rmFirstRecordPage ≤ pageNo ∧ pageNo < fh.numPages

instance (pageNo : ℤ) : Decidable (fh.hasPage pageNo) := inferInstanceAs (Decidable (_ ∧ _))

/-- The record at `rid`; zero bytes where the file has no page yet. -/
def record (rid : Rid) : RmRecord :=
  if fh.hasPage rid.pageNo then fh.slots rid else zeroRecord fh.recordSize

def isRecord (rid : Rid) : Bool := decide (fh.hasPage rid.pageNo) && fh.bitmap rid

/-- A fresh page of zeros becomes the first free page. -/
def createNewPageHandle : ℤ × RmFileHandle :=
  (fh.numPages,
    { fh with
      numPages := fh.numPages + 1
      slots := fun rid => if rid.pageNo = fh.numPages then zeroRecord fh.recordSize else fh.slots rid
      bitmap := fun rid => if rid.pageNo = fh.numPages then false else fh.bitmap rid
      numRecords := Function.update fh.numRecords fh.numPages 0
      nextFreePageNo := Function.update fh.nextFreePageNo fh.numPages fh.firstFreePageNo
      firstFreePageNo := fh.numPages
      header_page := fh.header_page.trans (Int.le_add_one le_rfl) })

def createPageHandle : ℤ × RmFileHandle :=
  if 0 ≤ fh.firstFreePageNo ∧ fh.hasPage fh.firstFreePageNo then (fh.firstFreePageNo, fh)
  else fh.createNewPageHandle

/-- `Bitmap::first_bit(false, ..)`: the page's first free slot, if any. -/
def firstFreeSlot (pageNo : ℤ) : Option ℕ :=
  (List.range fh.numRecordsPerPage).find? fun slotNo => !fh.bitmap ⟨pageNo, slotNo⟩

/-- Write a record into a slot and mark the slot as used. -/
def occupy (rid : Rid) (rec : RmRecord) : RmFileHandle :=
  { fh with
    slots := Function.update fh.slots rid rec
    bitmap := Function.update fh.bitmap rid true
    numRecords := Function.update fh.numRecords rid.pageNo (fh.numRecords rid.pageNo + 1) }

/-- The first free slot of the first free page. A full page gives up its place in the free
list, also when pages are linked behind it. -/
def insertRecord (rec : Rid → RmRecord) : Rid × RmFileHandle :=
  let (pageNo, fh) := fh.createPageHandle
  match fh.firstFreeSlot pageNo with
  | none => (⟨-1, -1⟩, fh)
  | some slotNo =>
    let rid : Rid := ⟨pageNo, slotNo⟩
    let fh := fh.occupy rid (rec rid)
    (rid, if fh.numRecords pageNo = fh.numRecordsPerPage then { fh with firstFreePageNo := rmNoPage }
      else fh)

/-- Insertion at a given place, as the rollback of a deletion does it: a new page is made
first, whatever the place. -/
def insertRecordAt (rid : Rid) (rec : RmRecord) : RmFileHandle :=
  let fh := fh.createNewPageHandle.2
  if fh.hasPage rid.pageNo then
    let fh := fh.occupy rid rec
    if fh.numRecords rid.pageNo = fh.numRecordsPerPage then
      { fh with firstFreePageNo := fh.nextFreePageNo rid.pageNo }
    else fh
  else fh

/-- Zero a slot and mark it as free. -/
def clear (rid : Rid) : RmFileHandle :=
  { fh with
    slots := Function.update fh.slots rid (zeroRecord fh.recordSize)
    bitmap := Function.update fh.bitmap rid false
    numRecords := Function.update fh.numRecords rid.pageNo (fh.numRecords rid.pageNo - 1) }

/-- The page becomes the first free one, also when it is in the list already. -/
def releasePageHandle (pageNo : ℤ) : RmFileHandle :=
  { fh with
    nextFreePageNo := Function.update fh.nextFreePageNo pageNo fh.firstFreePageNo
    firstFreePageNo := pageNo }

def deleteRecord (rid : Rid) : RmFileHandle :=
  if fh.isRecord rid then
    let fh := fh.clear rid
    if fh.numRecords rid.pageNo < fh.numRecordsPerPage then fh.releasePageHandle rid.pageNo else fh
  else fh

def updateRecord (rid : Rid) (rec : RmRecord) : RmFileHandle :=
  if fh.hasPage rid.pageNo then { fh with slots := Function.update fh.slots rid rec } else fh

/-- The records that `RmScan` visits, in order. -/
def scanRids : List Rid :=
  (List.range (fh.numPages - rmFirstRecordPage).toNat).flatMap fun page : ℕ =>
    ((List.range fh.numRecordsPerPage).map fun slot : ℕ =>
        (⟨rmFirstRecordPage + page, slot⟩ : Rid)).filter fh.isRecord

/-! ### What the operations do to `record` and `isRecord` -/

section lemmas
variable {fh} {rid r : Rid} {rec : RmRecord}

theorem isRecord_iff : fh.isRecord rid = true ↔ fh.hasPage rid.pageNo ∧ fh.bitmap rid = true := by
  simp [isRecord]

theorem mem_scanRids (h : rid ∈ fh.scanRids) : fh.isRecord rid = true := by
  simp only [scanRids, List.mem_flatMap, List.mem_filter] at h
  obtain ⟨_, _, _, h⟩ := h
  exact h

theorem slotNo_of_mem_scanRids (h : rid ∈ fh.scanRids) : 0 ≤ rid.slotNo := by
  simp only [scanRids, List.mem_flatMap, List.mem_filter, List.mem_map] at h
  obtain ⟨page, -, ⟨slot, -, rfl⟩, -⟩ := h
  exact Int.natCast_nonneg slot

theorem scanRids_nodup (fh : RmFileHandle) : fh.scanRids.Nodup := by
  refine List.nodup_flatMap.mpr ⟨fun page _ => ?_, ?_⟩
  · refine List.Nodup.filter _ (List.Nodup.map ?_ List.nodup_range)
    intro a b hab
    exact Int.ofNat_inj.mp (Rid.mk.inj hab).2
  · refine List.Pairwise.imp_of_mem ?_ (List.nodup_range)
    intro a b _ _ hne r ha hb
    simp only [List.mem_filter, List.mem_map] at ha hb
    obtain ⟨⟨i, -, rfl⟩, -⟩ := ha
    obtain ⟨⟨j, -, heq⟩, -⟩ := hb
    rw [Rid.mk.injEq] at heq
    omega

/-- Nothing changes but what a fresh page adds to the file. -/
structure SameRecords (fh fh' : RmFileHandle) : Prop where
  recordSize : fh'.recordSize = fh.recordSize
  hasPage : ∀ p, fh.hasPage p → fh'.hasPage p
  record : fh'.record = fh.record
  isRecord : fh'.isRecord = fh.isRecord

theorem SameRecords.refl (fh : RmFileHandle) : SameRecords fh fh := ⟨rfl, fun _ h => h, rfl, rfl⟩

theorem createNewPageHandle_hasPage {p : ℤ} :
    fh.createNewPageHandle.2.hasPage p ↔ fh.hasPage p ∨ p = fh.numPages := by
  have := fh.header_page
  simp only [createNewPageHandle, RmFileHandle.hasPage]
  omega

theorem createNewPageHandle_same : SameRecords fh fh.createNewPageHandle.2 := by
  have hnone : ¬fh.hasPage fh.numPages := by simp [RmFileHandle.hasPage]
  refine ⟨rfl, fun p h => createNewPageHandle_hasPage.mpr (.inl h), funext fun r => ?_,
    funext fun r => ?_⟩
  · simp only [RmFileHandle.record, createNewPageHandle_hasPage]
    by_cases hr : r.pageNo = fh.numPages <;> simp [createNewPageHandle, hr, hnone]
  · simp only [RmFileHandle.isRecord, createNewPageHandle_hasPage]
    by_cases hr : r.pageNo = fh.numPages <;> simp [createNewPageHandle, hr, hnone]

theorem createPageHandle_same (fh : RmFileHandle) : SameRecords fh fh.createPageHandle.2 := by
  unfold createPageHandle
  split
  · exact .refl fh
  · exact createNewPageHandle_same

theorem createPageHandle_hasPage (fh : RmFileHandle) :
    fh.createPageHandle.2.hasPage fh.createPageHandle.1 := by
  unfold createPageHandle
  split
  · rename_i h
    exact h.2
  · exact createNewPageHandle_hasPage.mpr (.inr rfl)

/-- One slot was written; `used` says whether it is marked as used afterwards. -/
structure Wrote (fh fh' : RmFileHandle) (rid : Rid) (rec : RmRecord) (used : Bool) : Prop where
  recordSize : fh'.recordSize = fh.recordSize
  hasPage : ∀ p, fh.hasPage p → fh'.hasPage p
  page : fh'.hasPage rid.pageNo
  record : fh'.record = Function.update fh.record rid rec
  isRecord : fh'.isRecord = Function.update fh.isRecord rid used

theorem SameRecords.wrote {fh₀ fh' : RmFileHandle} {used : Bool} (h : SameRecords fh₀ fh)
    (hw : Wrote fh fh' rid rec used) : Wrote fh₀ fh' rid rec used :=
  ⟨hw.recordSize.trans h.recordSize, fun p hp => hw.hasPage p (h.hasPage p hp), hw.page,
    h.record ▸ hw.record, h.isRecord ▸ hw.isRecord⟩

private theorem record_update {slots : Rid → RmRecord} (hp : fh.hasPage rid.pageNo)
    (hs : slots = Function.update fh.slots rid rec) :
    (fun r => if fh.hasPage r.pageNo then slots r else zeroRecord fh.recordSize) =
      Function.update fh.record rid rec := by
  subst hs
  funext r
  by_cases hr : r = rid
  · subst hr
    simp [hp]
  · simp [RmFileHandle.record, hr]

private theorem isRecord_update {bitmap : Rid → Bool} {used : Bool} (hp : fh.hasPage rid.pageNo)
    (hs : bitmap = Function.update fh.bitmap rid used) :
    (fun r => decide (fh.hasPage r.pageNo) && bitmap r) = Function.update fh.isRecord rid used := by
  subst hs
  funext r
  by_cases hr : r = rid
  · subst hr
    simp [hp]
  · simp [RmFileHandle.isRecord, hr]

theorem occupy_wrote (hp : fh.hasPage rid.pageNo) : Wrote fh (fh.occupy rid rec) rid rec true :=
  ⟨rfl, fun _ h => h, hp, record_update hp rfl, isRecord_update hp rfl⟩

/-- An insertion fails without a trace in the records, or it fills a slot that was free. -/
theorem insertRecord_spec (fh : RmFileHandle) (rec : Rid → RmRecord) :
    ((fh.insertRecord rec).1 = ⟨-1, -1⟩ ∧ SameRecords fh (fh.insertRecord rec).2) ∨
      (fh.isRecord (fh.insertRecord rec).1 = false ∧
        Wrote fh (fh.insertRecord rec).2 (fh.insertRecord rec).1 (rec (fh.insertRecord rec).1)
          true) := by
  have hsame := createPageHandle_same fh
  have hpage := createPageHandle_hasPage fh
  simp only [insertRecord]
  generalize fh.createPageHandle = created at hsame hpage
  obtain ⟨pageNo, fh₁⟩ := created
  cases hfree : fh₁.firstFreeSlot pageNo with
  | none => exact .inl ⟨rfl, hsame⟩
  | some slotNo =>
    refine .inr ⟨?_, ?_⟩
    · have hbit : fh₁.bitmap ⟨pageNo, slotNo⟩ = false := by
        have := List.find?_some hfree
        simpa using this
      have hrec : fh₁.isRecord ⟨pageNo, slotNo⟩ = false := by simp [RmFileHandle.isRecord, hbit]
      rwa [hsame.isRecord] at hrec
    · have hw : Wrote fh (fh₁.occupy ⟨pageNo, slotNo⟩ (rec ⟨pageNo, slotNo⟩)) ⟨pageNo, slotNo⟩
          (rec ⟨pageNo, slotNo⟩) true := hsame.wrote (occupy_wrote hpage)
      dsimp only
      split
      · exact ⟨hw.recordSize, hw.hasPage, hw.page, hw.record, hw.isRecord⟩
      · exact hw

theorem insertRecordAt_wrote (hp : fh.createNewPageHandle.2.hasPage rid.pageNo) :
    Wrote fh (fh.insertRecordAt rid rec) rid rec true := by
  have hw : Wrote fh _ rid rec true := createNewPageHandle_same.wrote (occupy_wrote hp)
  simp only [insertRecordAt, hp, if_true]
  split
  · exact ⟨hw.recordSize, hw.hasPage, hw.page, hw.record, hw.isRecord⟩
  · exact hw

theorem deleteRecord_wrote (h : fh.isRecord rid = true) :
    Wrote fh (fh.deleteRecord rid) rid (zeroRecord fh.recordSize) false := by
  have hp := (isRecord_iff.mp h).1
  have hw : Wrote fh (fh.clear rid) rid (zeroRecord fh.recordSize) false :=
    ⟨rfl, fun _ h => h, hp, record_update hp rfl, isRecord_update hp rfl⟩
  simp only [deleteRecord, h, if_true]
  split
  · exact ⟨hw.recordSize, hw.hasPage, hw.page, hw.record, hw.isRecord⟩
  · exact hw

theorem updateRecord_wrote (hp : fh.hasPage rid.pageNo) :
    Wrote fh (fh.updateRecord rid rec) rid rec (fh.isRecord rid) := by
  simp only [updateRecord, hp, if_true]
  refine ⟨rfl, fun _ h => h, hp, record_update hp rfl, ?_⟩
  rw [Function.update_eq_self]
  rfl

end lemmas
end RmFileHandle
end Rmdb
