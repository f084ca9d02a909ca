import Rmdb.Record.FreeList
import Rmdb.Storage.PinCounts

/-! The record operations on the pages of a buffer pool. -/
namespace Rmdb

open Program

/-- A record as `get_record` copies it out of its slot. -/
def RmPage.copySlot (hdr : RmFileHdr) (page : Bytes) (isMvcc : Bool) (slotNo : ℕ) : Except RmError RecordCopy :=
  let pos := slotPos hdr slotNo
  if isMvcc then copyRecord page pos hdr.recordSize
  else if looksLikeTupleMeta page pos then copyRecord page (pos + tupleMetaSize) (hdr.recordSize - tupleMetaSize)
  else copyRecord page pos hdr.recordSize

theorem RmFile.getRecord_eq (f : RmFile) (isMvcc : Bool) (rid : Rid) : f.getRecord isMvcc rid =
    match f.fetchPageHandle rid.pageNo with
    | none => .ok none
    | some page => some <$> RmPage.copySlot f.hdr page isMvcc rid.slotNo.toNat := by
  unfold getRecord
  cases f.fetchPageHandle rid.pageNo with
  | none => rfl
  | some page =>
    unfold RmPage.copySlot
    cases isMvcc with
    | true => rfl
    | false =>
      dsimp only
      rw [if_neg Bool.false_ne_true, if_neg Bool.false_ne_true]
      split <;> rfl

/-- The headers of the open record files by their descriptors, and the pool of all their pages. -/
structure OpenFiles (n : ℕ) (δ : Type) where
  hdrs : ℤ → RmFileHdr
  pool : BufferPoolManager n δ

inductive RecordError where
  | internalError
  | badArrayNewLength
  /-- The call does not come back. -/
  | crash
deriving DecidableEq, Repr

/-- What a call is told of its transaction. Where there is a log manager, the calls on it return, throw or do not
come back. -/
structure RecordContext where
  isMvcc : Bool
  log : Option (Except PoolError Unit)

namespace OpenFiles

open BufferPoolManager

variable {n : ℕ} {δ : Type}

abbrev FileM (n : ℕ) (δ : Type) := ExceptT RecordError (StateM (OpenFiles n δ))

def ofPoolError : PoolError → RecordError
  | .internalError => .internalError
  | .crash => .crash

def onPool {α : Type} (call : PoolM n δ α) : FileM n δ α := do
  let s ← get
  let (res, pool) := runFrom call s.pool
  modify fun s => { s with pool }
  match res with
  | .ok a => return a
  | .error e => throw (ofPoolError e)

def setData (f : Fin n) (data : Bytes) : FileM n δ Unit :=
  modify fun s => { s with pool := s.pool.modifyPage f fun page => { page with data } }

def setHdr (fd : ℤ) (hdr : RmFileHdr) : FileM n δ Unit :=
  modify fun s => { s with hdrs := Function.update s.hdrs fd hdr }

/-- `unpin_page` with the page that the frame holds. -/
def unpin (f : Fin n) (isDirty : Bool) : FileM n δ Unit := do
  let s ← get
  let _ ← onPool (unpinPage (s.pool.pages f).id isDirty)

section operations
variable (io : DiskIo δ) (fd : ℤ)

/-- The page of a handle is a frame. -/
def fetchPageHandle (pageNo : ℤ) : FileM n δ (Option (Fin n)) := do
  let s ← get
  if pageNo < rmFirstRecordPage ∨ (s.hdrs fd).numPages ≤ pageNo then return none
  else onPool (fetchPage io ⟨fd, pageNo⟩)

def writeFileHdr : FileM n δ Unit := do
  let s ← get
  match io.writePage ⟨fd, 0⟩ (s.hdrs fd).encode s.pool.disk with
  | none => throw .internalError
  | some disk => modify fun s => { s with pool := { s.pool with disk } }

def createNewPageHandle : FileM n δ (Option (Fin n)) := do
  match ← onPool (newPage io (some fd)) with
  | none => return none
  | some f =>
    let s ← get
    let hdr := s.hdrs fd
    let page := RmPage.setNumRecords (s.pool.pages f).data 0
    let page := RmPage.setNextFreePageNo page hdr.firstFreePageNo
    setHdr fd { hdr with numPages := hdr.numPages + 1, firstFreePageNo := (s.pool.pages f).id.pageNo }
    setData f (RmPage.setBitmap page (Bitmap.init hdr.bitmapSize))
    writeFileHdr io fd
    return some f

def createPageHandle : FileM n δ (Option (Fin n)) := do
  let hdr := (← get).hdrs fd
  if hdr.firstFreePageNo = -1 then createNewPageHandle io fd
  else if 0 ≤ hdr.firstFreePageNo ∧ hdr.firstFreePageNo < hdr.numPages then
    match ← fetchPageHandle io fd hdr.firstFreePageNo with
    | some f => return some f
    | none => createNewPageHandle io fd
  else createNewPageHandle io fd

def getRecord (ctx : RecordContext) (rid : Rid) : FileM n δ (Option RecordCopy) := do
  match ← fetchPageHandle io fd rid.pageNo with
  | none => return none
  | some f =>
    let s ← get
    match RmPage.copySlot (s.hdrs fd) (s.pool.pages f).data ctx.isMvcc rid.slotNo.toNat with
    | .error .badArrayNewLength => throw .badArrayNewLength
    | .ok record =>
      unpin f false
      return some record

/-- The bitmap of a missing page is a null pointer. -/
def isRecord (rid : Rid) : FileM n δ Bool := do
  match ← fetchPageHandle io fd rid.pageNo with
  | none => throw .crash
  | some f =>
    let s ← get
    return Bitmap.isSet (RmPage.bitmap (s.hdrs fd) (s.pool.pages f).data) rid.slotNo.toNat

/-- The record goes to the log, and the log to disk. -/
def addLog (ctx : RecordContext) : FileM n δ Unit :=
  match ctx.log with
  | some (.error e) => throw (ofPoolError e)
  | _ => pure ()

/-- The record goes to the first free slot of a page. -/
def insertInto (ctx : RecordContext) (buf : Bytes) (f : Fin n) : FileM n δ Rid := do
  let s ← get
  let hdr := s.hdrs fd
  let slotNo := Bitmap.firstBit false (RmPage.bitmap hdr (s.pool.pages f).data) hdr.numRecordsPerPage
  if slotNo < hdr.numRecordsPerPage then
    addLog ctx
    let page := RmPage.fill hdr (s.pool.pages f).data slotNo (buf.take hdr.recordSize)
    setData f page
    if RmPage.numRecords page = hdr.numRecordsPerPage then setHdr fd { hdr with firstFreePageNo := rmNoPage }
    unpin f true
    return ⟨(s.pool.pages f).id.pageNo, slotNo⟩
  else
    unpin f false
    return ⟨-1, -1⟩

def insertRecord (ctx : RecordContext) (buf : Bytes) : FileM n δ Rid := do
  match ← createPageHandle io fd with
  | none => throw .crash
  | some f => insertInto fd ctx buf f

/-- What is done with a page, unless its handle is null. -/
def withPage (pageNo : ℤ) (k : Fin n → FileM n δ Unit) : FileM n δ Unit := do
  match ← fetchPageHandle io fd pageNo with
  | none => return
  | some f => k f

/-- The record goes to this slot of a page, in use or not. -/
def fillSlot (slotNo : ℕ) (buf : Bytes) (f : Fin n) : FileM n δ Unit := do
  let s ← get
  let hdr := s.hdrs fd
  let page := RmPage.fill hdr (s.pool.pages f).data slotNo (buf.take hdr.recordSize)
  setData f page
  if RmPage.numRecords page = hdr.numRecordsPerPage then
    setHdr fd { hdr with firstFreePageNo := RmPage.nextFreePageNo page }
  unpin f true

def insertRecordAt (rid : Rid) (buf : Bytes) : FileM n δ Unit := do
  let _ ← createNewPageHandle io fd
  withPage io fd rid.pageNo (fillSlot fd rid.slotNo.toNat buf)

def releasePageHandle (f : Fin n) : FileM n δ Unit := do
  let s ← get
  let hdr := s.hdrs fd
  let pageNo := (s.pool.pages f).id.pageNo
  if 0 ≤ pageNo ∧ pageNo < hdr.numPages then
    setData f (RmPage.setNextFreePageNo (s.pool.pages f).data hdr.firstFreePageNo)
    setHdr fd { hdr with firstFreePageNo := pageNo }
    writeFileHdr io fd

/-- Where there is a log manager, the record goes to the log before it is changed. -/
def logOld (ctx : RecordContext) (rid : Rid) : FileM n δ Unit := do
  if ctx.log.isSome then
    match ← getRecord io fd ctx rid with
    | none => return
    | some _ => addLog ctx

/-- The record of a slot is taken out of its page, where there is one. -/
def clearSlot (slotNo : ℕ) (f : Fin n) : FileM n δ Unit := do
  let s ← get
  let hdr := s.hdrs fd
  if Bitmap.isSet (RmPage.bitmap hdr (s.pool.pages f).data) slotNo then
    let page := RmPage.clear hdr (s.pool.pages f).data slotNo
    setData f page
    if RmPage.numRecords page < hdr.numRecordsPerPage then releasePageHandle io fd f
    unpin f true

def deleteRecord (ctx : RecordContext) (rid : Rid) : FileM n δ Unit := do
  logOld io fd ctx rid
  withPage io fd rid.pageNo (clearSlot io fd rid.slotNo.toNat)

def updateRecord (ctx : RecordContext) (rid : Rid) (buf : Bytes) : FileM n δ Unit := do
  logOld io fd ctx rid
  withPage io fd rid.pageNo fun f => do
    let s ← get
    let hdr := s.hdrs fd
    setData f (RmPage.setSlot hdr (s.pool.pages f).data rid.slotNo.toNat (buf.take hdr.recordSize))
    unpin f true

/-- `RmScan::next`, on a file with this header. -/
def next (hdr : RmFileHdr) (rid : Rid) : FileM n δ Rid := do
  if rid.pageNo = rmNoPage then return rid
  else if hend : hdr.numPages ≤ rid.pageNo then return ⟨rmNoPage, -1⟩
  else
    match ← fetchPageHandle io fd rid.pageNo with
    | none => next hdr ⟨rid.pageNo + 1, -1⟩
    | some f =>
      let s ← get
      let nextSlot := Bitmap.nextBit true (RmPage.bitmap hdr (s.pool.pages f).data) hdr.numRecordsPerPage rid.slotNo
      if nextSlot < hdr.numRecordsPerPage then
        unpin f false
        return ⟨rid.pageNo, nextSlot⟩
      else
        unpin f false
        if hdr.numPages ≤ rid.pageNo + 1 then return ⟨rmNoPage, -1⟩ else next hdr ⟨rid.pageNo + 1, -1⟩
termination_by (hdr.numPages - rid.pageNo).toNat

end operations

/-- No page behind the end of a file is in the pool, and the files end where their headers say, or later. -/
structure Ready (s : OpenFiles n δ) : Prop where
  steady : Steady s.pool
  numbered : ∀ fd, (s.hdrs fd).numPages ≤ s.pool.fd2pageno fd

/-- The call comes back, with so many more pins than before. -/
def Leaves {α : Type} (held : PageId → ℤ) (x : FileM n δ α) (s : OpenFiles n δ) : Prop :=
  ∃ res s', runFrom x s = (res, s') ∧ res ≠ .error .crash ∧ Ready s' ∧ s'.pool.pins = s.pool.pins + held

/-- A page is in a frame, and pinned. -/
structure InFrame (s : OpenFiles n δ) (f : Fin n) (id : PageId) (data : Bytes) (disk : δ) : Prop where
  mapped : s.pool.pageTable id = some f
  pinned : 0 < s.pool.pins id
  data : (s.pool.pages f).data = data
  disk : s.pool.disk = disk

/-- The page that `fetch_page_handle` gives out, and the disk behind that. -/
def pageOf (io : DiskIo δ) (s : OpenFiles n δ) (fd pageNo : ℤ) : Option (Bytes × δ) :=
  if pageNo < rmFirstRecordPage ∨ (s.hdrs fd).numPages ≤ pageNo then none else s.pool.fetched io ⟨fd, pageNo⟩

variable {io : DiskIo δ} {s s' s₁ : OpenFiles n δ} {fd pageNo : ℤ} {f : Fin n} {id : PageId} {data : Bytes} {disk : δ}
  {held held' : PageId → ℤ} {ctx : RecordContext} {rid : Rid} {buf : Bytes} {α β : Type}

theorem runFrom_onPool (call : PoolM n δ α) : runFrom (onPool call) s =
    match runFrom call s.pool with
    | (.ok a, pool) => (.ok a, { s with pool })
    | (.error e, pool) => (.error (ofPoolError e), { s with pool }) := by
  simp only [onPool, runFrom_bind, runFrom_get, runFrom_modify]
  rcases runFrom call s.pool with ⟨_ | _, _⟩ <;> rfl

theorem Leaves.bind {x : FileM n δ α} {k : α → FileM n δ β} {a : α} (hx : runFrom x s = (.ok a, s₁))
    (hpins : s₁.pool.pins = s.pool.pins + held) (hk : Leaves held' (k a) s₁) : Leaves (held + held') (x >>= k) s := by
  obtain ⟨res, s', hrun, hres, hready, hpins'⟩ := hk
  refine ⟨res, s', ?_, hres, hready, ?_⟩
  · rw [runFrom_bind, hx]
    exact hrun
  · rw [hpins', hpins, add_assoc]

theorem leaves_pure (h : Ready s) (a : α) : Leaves 0 (pure a : FileM n δ α) s :=
  ⟨.ok a, s, rfl, nofun, h, (add_zero _).symm⟩

theorem Leaves.of_error {x : FileM n δ α} {e : RecordError} (hrun : runFrom x s = (.error e, s')) (he : e ≠ .crash)
    (hready : Ready s') (hpins : s'.pool.pins = s.pool.pins + held) : Leaves held x s :=
  ⟨.error e, s', hrun, fun heq => he (Except.error.inj heq), hready, hpins⟩

/-- The first part leaves no pins. -/
theorem Leaves.skip {x : FileM n δ α} {k : α → FileM n δ β} {a : α} (hx : runFrom x s = (.ok a, s₁))
    (hpins : s₁.pool.pins = s.pool.pins) (hk : Leaves held (k a) s₁) : Leaves held (x >>= k) s := by
  obtain ⟨res, s', hrun, hres, hready, hpins'⟩ := hk
  refine ⟨res, s', ?_, hres, hready, by rw [hpins', hpins]⟩
  rw [runFrom_bind, hx]
  exact hrun

theorem Leaves.get {k : OpenFiles n δ → FileM n δ β} (hk : Leaves held (k s) s) : Leaves held (get >>= k) s := by
  obtain ⟨res, s', hrun, hrest⟩ := hk
  exact ⟨res, s', by rw [runFrom_bind, runFrom_get]; exact hrun, hrest⟩

/-- The first part throws. -/
theorem Leaves.bind_error {x : FileM n δ α} {k : α → FileM n δ β} {e : RecordError} (hx : runFrom x s = (.error e, s'))
    (he : e ≠ .crash) (hready : Ready s') (hpins : s'.pool.pins = s.pool.pins + held) : Leaves held (x >>= k) s := by
  apply Leaves.of_error _ he hready hpins
  rw [runFrom_bind, hx]

/-- A page is pinned first and released in what follows. -/
theorem Leaves.released {x : FileM n δ α} {k : α → FileM n δ β} {a : α} (hx : runFrom x s = (.ok a, s₁))
    (hpins : s₁.pool.pins = s.pool.pins + Pi.single id 1) (hk : Leaves (Pi.single id (-1)) (k a) s₁) :
    Leaves 0 (x >>= k) s := by
  have h := Leaves.bind hx hpins hk
  rw [single_add_neg] at h
  exact h

/-! ### The parts -/

theorem fetchPageHandle_cases (h : Ready s) (io : DiskIo δ) (fd pageNo : ℤ) :
    (∃ f data disk s', pageOf io s fd pageNo = some (data, disk) ∧
      runFrom (fetchPageHandle io fd pageNo) s = (.ok (some f), s') ∧ Ready s' ∧ s'.hdrs = s.hdrs ∧
        s'.pool.pins = s.pool.pins + Pi.single ⟨fd, pageNo⟩ 1 ∧ InFrame s' f ⟨fd, pageNo⟩ data disk) ∨
    (pageOf io s fd pageNo = none ∧ (runFrom (fetchPageHandle io fd pageNo) s = (.ok none, s) ∧
        (¬(pageNo < rmFirstRecordPage ∨ (s.hdrs fd).numPages ≤ pageNo) → s.pool.freed io = none) ∨
      ∃ s', runFrom (fetchPageHandle io fd pageNo) s = (.error .internalError, s') ∧ Ready s' ∧
        s'.pool.pins = s.pool.pins)) := by
  by_cases hout : pageNo < rmFirstRecordPage ∨ (s.hdrs fd).numPages ≤ pageNo
  · right
    constructor
    · rw [pageOf, if_pos hout]
    · left
      refine ⟨?_, fun hin => absurd hout hin⟩
      simp only [fetchPageHandle, runFrom_bind, runFrom_get, if_pos hout, runFrom_pure]
  · have hpage : pageOf io s fd pageNo = s.pool.fetched io ⟨fd, pageNo⟩ := by rw [pageOf, if_neg hout]
    have hrun : runFrom (fetchPageHandle io fd pageNo) s = runFrom (onPool (fetchPage io ⟨fd, pageNo⟩)) s := by
      simp only [fetchPageHandle, runFrom_bind, runFrom_get, if_neg hout]
    have hvalid : pageNo ≠ invalidPageNo := by
      unfold rmFirstRecordPage at hout
      unfold invalidPageNo
      omega
    have hin : pageNo < s.pool.fd2pageno fd := by
      have hnum := h.numbered fd
      omega
    rw [hpage, hrun, runFrom_onPool]
    rcases fetchPage_cases h.steady io ⟨fd, pageNo⟩ hvalid hin with
      ⟨f, data, disk, pool', hfetched, hfetch, hpinned⟩ | ⟨hnone, ⟨hfetch, hfreed⟩ | ⟨pool', hfetch, hbalanced⟩⟩
    · left
      rw [hfetch, hfetched]
      have hready : Ready { s with pool := pool' } := ⟨hpinned.steady, fun fd => le_trans (h.numbered fd) (hpinned.numbers fd)⟩
      have hpos : 0 < pool'.pins ⟨fd, pageNo⟩ := by
        have hnonneg := h.steady.pins_nonneg ⟨fd, pageNo⟩
        rw [hpinned.pins, Pi.add_apply, Pi.single_eq_same]
        omega
      exact ⟨f, data, disk, _, rfl, rfl, hready, rfl, hpinned.pins, hpinned.mapped, hpos, hpinned.data, hpinned.disk⟩
    · right
      rw [hfetch]
      exact ⟨hnone, Or.inl ⟨rfl, fun _ => hfreed⟩⟩
    · right
      rw [hfetch]
      have hready : Ready { s with pool := pool' } :=
        ⟨hbalanced.steady, fun fd => le_trans (h.numbered fd) (hbalanced.numbers fd)⟩
      exact ⟨hnone, Or.inr ⟨_, rfl, hready, hbalanced.pins⟩⟩

/-- The data of a frame has nothing to do with the pins. -/
theorem setData_spec (h : Ready s) (hframe : InFrame s f id data disk) (data' : Bytes) :
    ∃ s', runFrom (setData f data') s = (.ok (), s') ∧ Ready s' ∧ s'.hdrs = s.hdrs ∧ s'.pool.pins = s.pool.pins ∧
      InFrame s' f id data' disk := by
  have hsame : Same s.pool (s.pool.modifyPage f fun page => { page with data := data' }) := by
    refine ⟨rfl, rfl, rfl, fun g => ?_, fun g => ?_⟩
    all_goals
      by_cases hg : g = f
      · rw [hg]
        simp [modifyPage]
      · simp [modifyPage, hg]
  obtain ⟨hsteady, hpins⟩ := h.steady.same hsame rfl
  refine ⟨_, rfl, ⟨hsteady, h.numbered⟩, rfl, hpins, hframe.mapped, ?_, ?_, hframe.disk⟩
  · show 0 < (s.pool.modifyPage f fun page => { page with data := data' }).pins id
    rw [hpins]
    exact hframe.pinned
  · simp [modifyPage]

/-- A header that does not go beyond the pages of the file is changed. -/
theorem setHdr_spec (h : Ready s) {hdr : RmFileHdr} (hnum : hdr.numPages ≤ s.pool.fd2pageno fd) :
    ∃ s', runFrom (setHdr fd hdr) s = (.ok (), s') ∧ Ready s' ∧ s'.hdrs fd = hdr ∧ s'.pool = s.pool := by
  refine ⟨_, rfl, ⟨h.steady, fun fd' => ?_⟩, Function.update_self .., rfl⟩
  show (Function.update s.hdrs fd hdr fd').numPages ≤ _
  by_cases heq : fd' = fd
  · rw [heq, Function.update_self]
    exact hnum
  · rw [Function.update_of_ne heq]
    exact h.numbered fd'

theorem InFrame.congr (hframe : InFrame s f id data disk) (hpool : s'.pool = s.pool) : InFrame s' f id data disk :=
  ⟨hpool ▸ hframe.mapped, hpool ▸ hframe.pinned, hpool ▸ hframe.data, hpool ▸ hframe.disk⟩

theorem unpin_spec (h : Ready s) (hframe : InFrame s f id data disk) (isDirty : Bool) :
    ∃ s', runFrom (unpin f isDirty) s = (.ok (), s') ∧ Ready s' ∧ s'.hdrs = s.hdrs ∧
      s'.pool.pins = s.pool.pins + Pi.single id (-1) ∧ s'.pool.pageTable = s.pool.pageTable ∧
        (s'.pool.pages f).data = data ∧ s'.pool.disk = disk := by
  have hid := ((h.steady.mapped_iff id f).mp hframe.mapped).1
  obtain ⟨pool', hrun, hsteady, hpins, htable, hdata, hdisk, hnum⟩ :=
    unpinPage_spec h.steady hframe.mapped hframe.pinned isDirty
  refine ⟨{ s with pool := pool' }, ?_, ⟨hsteady, ?_⟩, rfl, hpins, htable, (hdata f).trans hframe.data,
    hdisk.trans hframe.disk⟩
  · simp only [unpin, runFrom_bind, runFrom_get, hid, runFrom_onPool, hrun, runFrom_pure]
  · rw [hnum]
    exact h.numbered

theorem leaves_unpin (h : Ready s) (hframe : InFrame s f id data disk) (isDirty : Bool) {k : Unit → FileM n δ β}
    (hk : ∀ s', Ready s' → Leaves 0 (k ()) s') : Leaves (Pi.single id (-1)) (unpin f isDirty >>= k) s := by
  obtain ⟨s', hrun, hready, -, hpins, -⟩ := unpin_spec h hframe isDirty
  have hall := Leaves.bind hrun hpins (hk s' hready)
  rw [add_zero] at hall
  exact hall

theorem writeFileHdr_some (h : Ready s) (hframe : InFrame s f id data disk) {disk' : δ}
    (hwrite : io.writePage ⟨fd, 0⟩ (s.hdrs fd).encode disk = some disk') :
    ∃ s', runFrom (writeFileHdr io fd) s = (.ok (), s') ∧ Ready s' ∧ s'.hdrs = s.hdrs ∧ s'.pool.pins = s.pool.pins ∧
      InFrame s' f id data disk' := by
  obtain ⟨hmapped, hpinned, hdata, rfl⟩ := hframe
  have hsame : Same s.pool { s.pool with disk := disk' } := ⟨rfl, rfl, rfl, fun _ => rfl, fun _ => rfl⟩
  obtain ⟨hsteady, hpins⟩ := h.steady.same hsame rfl
  refine ⟨{ s with pool := { s.pool with disk := disk' } }, ?_, ⟨hsteady, h.numbered⟩, rfl, rfl, hmapped, hpinned, hdata, rfl⟩
  simp only [writeFileHdr, runFrom_bind, runFrom_get, hwrite, runFrom_modify]

theorem writeFileHdr_none (hdisk : s.pool.disk = disk) (hwrite : io.writePage ⟨fd, 0⟩ (s.hdrs fd).encode disk = none) :
    runFrom (writeFileHdr io fd) s = (.error .internalError, s) := by
  rw [← hdisk] at hwrite
  simp only [writeFileHdr, runFrom_bind, runFrom_get, hwrite, runFrom_throw]

theorem addLog_spec (ctx : RecordContext) (s : OpenFiles n δ) : runFrom (addLog ctx) s =
    match ctx.log with
    | some (.error e) => (.error (ofPoolError e), s)
    | _ => (.ok (), s) := by
  unfold addLog
  split <;> rfl

/-- A page that is in the pool is what the next call finds. -/
theorem pageOf_of_mapped (hmapped : s.pool.pageTable ⟨fd, pageNo⟩ = some f) (hdata : (s.pool.pages f).data = data)
    (hdisk : s.pool.disk = disk) (hin : ¬(pageNo < rmFirstRecordPage ∨ (s.hdrs fd).numPages ≤ pageNo)) :
    pageOf io s fd pageNo = some (data, disk) := by
  rw [pageOf, if_neg hin, fetched, hmapped, ← hdata, ← hdisk]

theorem in_of_pageOf (h : (pageOf io s fd pageNo).isSome) :
    ¬(pageNo < rmFirstRecordPage ∨ (s.hdrs fd).numPages ≤ pageNo) := by
  intro hout
  rw [pageOf, if_pos hout] at h
  cases h

end OpenFiles
end Rmdb
