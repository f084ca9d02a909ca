import Rmdb.Storage.BufferPool
import Rmdb.Lib.Sparse

/-! The disk manager over files that the operating system keeps: which are open, and where their
pages are. -/
namespace Rmdb

/-- An open file and the position in it. -/
structure OpenFile where
  inode : ℕ
  pos : ℕ
deriving DecidableEq, Repr

/-- Files have numbers, and names in a directory; an open file outlives its name. -/
structure DiskManager where
  dir : String → Option ℕ
  nextInode : ℕ
  contents : ℕ → Bytes
  openFiles : ℤ → Option OpenFile
  path2fd : String → Option ℤ
  fd2path : ℤ → Option String

inductive DiskError where
  | fileExists
  | fileNotFound
  | fileNotOpen
  | unixError
deriving DecidableEq, Repr

namespace DiskManager

abbrev DiskM := ExceptT DiskError (StateM DiskManager)

def isFile (disk : DiskManager) (path : String) : Bool := (disk.dir path).isSome

def createFile (path : String) : DiskM Unit := do
  if (← get).isFile path then throw .fileExists
  modify fun disk => { disk with
    dir := Function.update disk.dir path (some disk.nextInode)
    nextInode := disk.nextInode + 1
    contents := Function.update disk.contents disk.nextInode [] }

def destroyFile (path : String) : DiskM Unit := do
  if ¬(← get).isFile path then throw .fileNotFound
  match (← get).path2fd path with
  | none => modify fun disk => { disk with dir := Function.update disk.dir path none }
  | some _ => throw .unixError

/-- The operating system opens the file under the descriptor `fd`. A file that is open already is
not opened again. -/
def openFile (path : String) (fd : ℤ) : DiskM ℤ := do
  match (← get).dir path with
  | none => throw .fileNotFound
  | some inode =>
    match (← get).path2fd path with
    | some _ => return -1
    | none =>
      modify fun disk => { disk with
        openFiles := Function.update disk.openFiles fd (some ⟨inode, 0⟩)
        path2fd := Function.update disk.path2fd path (some fd)
        fd2path := Function.update disk.fd2path fd (some path) }
      return fd

def closeFile (fd : ℤ) : DiskM Unit := do
  match (← get).fd2path fd with
  | none => throw .fileNotOpen
  | some path =>
    modify fun disk => { disk with
      openFiles := Function.update disk.openFiles fd none
      path2fd := Function.update disk.path2fd path none
      fd2path := Function.update disk.fd2path fd none }

/-- It fails for a negative offset, which nobody checks. -/
def lseek (disk : DiskManager) (fd offset : ℤ) : DiskManager :=
  if 0 ≤ offset then
    { disk with
      openFiles := Function.update disk.openFiles fd
        ((disk.openFiles fd).map fun file => { file with pos := offset.toNat }) }
  else disk

/-- The bytes read go over a frame of zeros. The offset is an `int`. -/
def readPage (id : PageId) (disk : DiskManager) : Option (Bytes × DiskManager) :=
  let disk := disk.lseek id.fd (int32 (id.pageNo * pageSize))
  (disk.openFiles id.fd).map fun file =>
    let bytes := ((disk.contents file.inode).drop file.pos).take pageSize
    (bytes ++ List.replicate (pageSize - bytes.length) 0,
      { disk with
        openFiles := Function.update disk.openFiles id.fd
          (some { file with pos := file.pos + bytes.length }) })

def writePage (id : PageId) (data : Bytes) (disk : DiskManager) : Option DiskManager :=
  let disk := disk.lseek id.fd (int32 (id.pageNo * pageSize))
  (disk.openFiles id.fd).map fun file =>
    { disk with
      contents := Function.update disk.contents file.inode
        (Sparse.overwrite 0 (disk.contents file.inode) file.pos data)
      openFiles := Function.update disk.openFiles id.fd
        (some { file with pos := file.pos + data.length }) }

def io : DiskIo DiskManager where
  readPage := readPage
  writePage := writePage

/-- The file that is open under a descriptor. -/
def inodeOf (disk : DiskManager) (fd : ℤ) : Option ℕ := (disk.openFiles fd).map OpenFile.inode

/-- The bytes of a page in a file, zeros behind its end. -/
def pageIn (disk : DiskManager) (inode : ℕ) (pageNo : ℤ) : Bytes :=
  Sparse.window 0 (disk.contents inode) (pageNo * pageSize).toNat pageSize

/-- The bytes of a page on disk. -/
def onDisk (disk : DiskManager) (id : PageId) : Bytes :=
  match disk.inodeOf id.fd with
  | none => []
  | some inode => disk.pageIn inode id.pageNo

end DiskManager

/-- The offset of the page fits an `int`. -/
structure PageId.InReach (id : PageId) : Prop where
  nonneg : 0 ≤ id.pageNo
  fits : id.pageNo * pageSize < 2 ^ 31

theorem PageId.InReach.offset {id : PageId} (h : id.InReach) : 0 ≤ id.pageNo * pageSize :=
  Int.mul_nonneg h.nonneg (Int.natCast_nonneg pageSize)

/-- What `lseek` leaves of the open files, and of all others. -/
theorem DiskManager.lseek_spec {disk : DiskManager} {id : PageId} {inode : ℕ} (hopen : disk.inodeOf id.fd = some inode)
    (hreach : id.InReach) : ∃ openFiles, disk.lseek id.fd (int32 (id.pageNo * pageSize)) = { disk with openFiles } ∧
      openFiles id.fd = some ⟨inode, (id.pageNo * pageSize).toNat⟩ ∧
      ∀ fd, (openFiles fd).map OpenFile.inode = disk.inodeOf fd := by
  have hoffset : int32 (id.pageNo * pageSize) = id.pageNo * pageSize := int32_eq hreach.offset hreach.fits
  obtain ⟨file, hfile, rfl⟩ := Option.map_eq_some_iff.mp hopen
  refine ⟨Function.update disk.openFiles id.fd (some ⟨file.inode, (id.pageNo * pageSize).toNat⟩), ?_, ?_, ?_⟩
  · rw [DiskManager.lseek, hoffset, if_pos hreach.offset, hfile]
    rfl
  · exact Function.update_self ..
  · intro fd
    by_cases heq : fd = id.fd
    · rw [heq, Function.update_self, hopen]
      rfl
    · rw [Function.update_of_ne heq]
      rfl

namespace DiskManager

variable {disk disk' : DiskManager} {id : PageId} {inode : ℕ}

/-- Reading moves positions only. -/
structure SameFiles (disk disk' : DiskManager) : Prop where
  contents : disk'.contents = disk.contents
  inodeOf : ∀ fd, disk'.inodeOf fd = disk.inodeOf fd

theorem SameFiles.onDisk (h : SameFiles disk disk') (id : PageId) : disk'.onDisk id = disk.onDisk id := by
  unfold DiskManager.onDisk pageIn
  rw [h.inodeOf, h.contents]

theorem inodeOf_update {openFiles : ℤ → Option OpenFile} {fd fd' : ℤ} {file : OpenFile}
    (hfile : (openFiles fd).map OpenFile.inode = some file.inode) :
    (Function.update openFiles fd (some file) fd').map OpenFile.inode = (openFiles fd').map OpenFile.inode := by
  by_cases heq : fd' = fd
  · rw [heq, Function.update_self, hfile]
    rfl
  · rw [Function.update_of_ne heq]

/-- A page of an open file is read as it is on disk. -/
theorem readPage_spec (hopen : disk.inodeOf id.fd = some inode) (hreach : id.InReach) :
    ∃ disk', readPage id disk = some (disk.onDisk id, disk') ∧ SameFiles disk disk' := by
  obtain ⟨openFiles, hseek, hfile, hothers⟩ := lseek_spec hopen hreach
  simp only [readPage, hseek, hfile, Option.map_some, Sparse.take_append_replicate, onDisk, hopen]
  refine ⟨_, rfl, rfl, fun fd => (inodeOf_update ?_).trans (hothers fd)⟩
  rw [hfile]
  rfl

/-- Writing a page of an open file changes this page and no other, where no other descriptor stands for
the file. -/
theorem writePage_spec {data : Bytes} (hopen : disk.inodeOf id.fd = some inode) (hreach : id.InReach)
    (hlen : data.length = pageSize) : ∃ disk', writePage id data disk = some disk' ∧
      (∀ fd, disk'.inodeOf fd = disk.inodeOf fd) ∧ disk'.pageIn inode id.pageNo = data ∧
      ∀ inode' pageNo, 0 ≤ pageNo → inode' ≠ inode ∨ pageNo ≠ id.pageNo →
        disk'.pageIn inode' pageNo = disk.pageIn inode' pageNo := by
  obtain ⟨openFiles, hseek, hfile, hothers⟩ := lseek_spec hopen hreach
  simp only [writePage, hseek, hfile, Option.map_some]
  refine ⟨_, rfl, fun fd => (inodeOf_update ?_).trans (hothers fd), ?_, ?_⟩
  · rw [hfile]
    rfl
  · simp only [pageIn, Function.update_self]
    rw [← hlen, Sparse.window_overwrite]
  · intro inode' pageNo hnonneg hne
    simp only [pageIn]
    by_cases heq : inode' = inode
    · have hpage := hne.resolve_left (not_not.mpr heq)
      have hsize : (pageSize : ℤ) = 4096 := rfl
      have hsize' : pageSize = 4096 := rfl
      rw [heq, Function.update_self]
      apply Sparse.window_overwrite_disjoint
      rw [hlen, hsize, hsize']
      have := hreach.nonneg
      omega
    · rw [Function.update_of_ne heq]

theorem inodeOf_lseek (disk : DiskManager) (fd offset fd' : ℤ) :
    (disk.lseek fd offset).inodeOf fd' = disk.inodeOf fd' := by
  unfold lseek
  split
  · by_cases heq : fd' = fd
    · rw [heq]
      simp only [inodeOf, Function.update_self, Option.map_map]
      rfl
    · simp only [inodeOf, Function.update_of_ne heq]
  · rfl

theorem inodeOf_readPage {data : Bytes} (h : readPage id disk = some (data, disk')) (fd : ℤ) :
    disk'.inodeOf fd = disk.inodeOf fd := by
  obtain ⟨file, hfile, heq⟩ := Option.map_eq_some_iff.mp h
  obtain ⟨_, rfl⟩ := Prod.mk.inj heq
  refine (inodeOf_update ?_).trans (inodeOf_lseek disk id.fd _ fd)
  rw [hfile]
  rfl

theorem inodeOf_writePage {data : Bytes} (h : writePage id data disk = some disk') (fd : ℤ) :
    disk'.inodeOf fd = disk.inodeOf fd := by
  obtain ⟨file, hfile, rfl⟩ := Option.map_eq_some_iff.mp h
  refine (inodeOf_update ?_).trans (inodeOf_lseek disk id.fd _ fd)
  rw [hfile]
  rfl

/-- No file is open under two descriptors. -/
def Distinct (disk : DiskManager) : Prop :=
  ∀ fd fd' inode, disk.inodeOf fd = some inode → disk.inodeOf fd' = some inode → fd = fd'

theorem Distinct.writePage (h : Distinct disk) {data : Bytes} (hopen : disk.inodeOf id.fd = some inode)
    (hreach : id.InReach) (hlen : data.length = pageSize) : ∃ disk', writePage id data disk = some disk' ∧
      (∀ fd, disk'.inodeOf fd = disk.inodeOf fd) ∧ disk'.onDisk id = data ∧
      ∀ id' : PageId, id'.InReach → id' ≠ id → disk'.onDisk id' = disk.onDisk id' := by
  obtain ⟨disk', hwrite, hinode, hself, hothers⟩ := writePage_spec hopen hreach hlen
  refine ⟨disk', hwrite, hinode, ?_, fun id' hreach' hne => ?_⟩
  · simp only [onDisk, hinode, hopen, hself]
  · simp only [onDisk, hinode]
    cases hopen' : disk.inodeOf id'.fd with
    | none => rfl
    | some inode' =>
      apply hothers inode' id'.pageNo hreach'.nonneg
      by_cases heq : inode' = inode
      · have hfd := h id'.fd id.fd inode (heq ▸ hopen') hopen
        exact .inr fun hpage => hne (PageId.mk.injEq .. ▸ ⟨hfd, hpage⟩)
      · exact .inl heq

end DiskManager
end Rmdb
