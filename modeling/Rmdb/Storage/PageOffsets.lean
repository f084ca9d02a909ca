import Rmdb.Storage.DiskManager

/-! Page numbers as the disk manager hands them out, and where it seeks for them. Both the number and
the offset are machine words. -/
namespace Rmdb.DiskManager

/-- The next page number of a file. The counters are atomic words, which wrap around. -/
def allocatePage (fd : ℤ) (fd2pageno : ℤ → BitVec 32) : Option (BitVec 32 × (ℤ → BitVec 32)) :=
  if 0 ≤ fd ∧ fd < maxFd then
    some (fd2pageno fd, Function.update fd2pageno fd (fd2pageno fd + 1))
  else none

/-- The page of a file that a machine word names. -/
def pageOf (fd : ℤ) (pageNo : BitVec 32) : PageId := ⟨fd, pageNo.toInt⟩

/-- The byte at which `read_page` and `write_page` begin. -/
def start (disk : DiskManager) (id : PageId) : Option ℕ :=
  ((disk.lseek id.fd (int32 (id.pageNo * pageSize))).openFiles id.fd).map OpenFile.pos

/-- The seeks for two pages of a file find their offsets, and whatever was done with the file before, what is
read or written for the one lies beside what is for the other. -/
structure OffsetsRight (fd : ℤ) (p q : BitVec 32) : Prop where
  exact : ∀ pageNo ∈ [p, q], int32 (pageNo.toInt * pageSize) = pageNo.toInt * pageSize
  disjoint : ∀ disk disk' : DiskManager, ∀ from_p from_q, disk.start (pageOf fd p) = some from_p →
    disk'.start (pageOf fd q) = some from_q → from_p + pageSize ≤ from_q ∨ from_q + pageSize ≤ from_p

variable {fd : ℤ} {disk disk' : DiskManager} {id : PageId} {p q : BitVec 32}

theorem lseek_contents (disk : DiskManager) (fd offset : ℤ) : (disk.lseek fd offset).contents = disk.contents := by
  unfold lseek
  split <;> rfl

/-- What is written begins there. -/
theorem writePage_at {data : Bytes} (hwrite : writePage id data disk = some disk') :
    ∃ inode from_id, disk.inodeOf id.fd = some inode ∧ disk.start id = some from_id ∧
      disk'.contents = Function.update disk.contents inode
        (Sparse.overwrite 0 (disk.contents inode) from_id data) := by
  obtain ⟨file, hfile, rfl⟩ := Option.map_eq_some_iff.mp hwrite
  have hinode := inodeOf_lseek disk id.fd (int32 (id.pageNo * pageSize)) id.fd
  refine ⟨file.inode, file.pos, ?_, ?_, ?_⟩
  · rw [← hinode, inodeOf, hfile]
    rfl
  · rw [start, hfile]
    rfl
  · rw [lseek_contents]

theorem inReach_of_lt (hlt : p.toNat < 2 ^ 19) : (pageOf fd p).InReach := by
  have hsize : (pageSize : ℤ) = 4096 := rfl
  have htoInt : p.toInt = p.toNat := BitVec.toInt_eq_toNat_of_lt (by omega)
  constructor
  · change 0 ≤ p.toInt
    omega
  · change p.toInt * pageSize < 2 ^ 31
    rw [htoInt, hsize]
    omega

theorem start_eq_of_lt (hlt : p.toNat < 2 ^ 19) {from_p : ℕ} (hstart : disk.start (pageOf fd p) = some from_p) :
    from_p = p.toNat * pageSize := by
  have hreach : (pageOf fd p).InReach := inReach_of_lt hlt
  have htoInt : p.toInt = p.toNat := BitVec.toInt_eq_toNat_of_lt (by omega)
  obtain ⟨file, hfile, rfl⟩ := Option.map_eq_some_iff.mp hstart
  have hopen : ∃ inode, disk.inodeOf (pageOf fd p).fd = some inode := by
    have hinode := inodeOf_lseek disk (pageOf fd p).fd (int32 ((pageOf fd p).pageNo * pageSize)) (pageOf fd p).fd
    rw [inodeOf, hfile] at hinode
    exact ⟨file.inode, hinode.symm⟩
  obtain ⟨inode, hopen⟩ := hopen
  obtain ⟨openFiles, hseek, hseeked, _⟩ := lseek_spec hopen hreach
  rw [hseek] at hfile
  have hpos := congrArg OpenFile.pos (Option.some.inj (hfile.symm.trans hseeked))
  rw [hpos, pageOf, htoInt]
  exact Int.toNat_natCast (p.toNat * pageSize)

/-- A seek to a negative offset fails, and the file stays where it is. -/
theorem start_of_neg (hexact : int32 (p.toInt * pageSize) = p.toInt * pageSize) (hneg : p.toInt < 0)
    (disk : DiskManager) : disk.start (pageOf fd p) = (disk.openFiles fd).map OpenFile.pos := by
  have hoffset : ¬0 ≤ p.toInt * pageSize := by
    have hsize : (pageSize : ℤ) = 4096 := rfl
    rw [hsize]
    omega
  rw [start, lseek, pageOf, hexact, if_neg hoffset]

theorem exact_bound (hexact : int32 (p.toInt * pageSize) = p.toInt * pageSize) : p.toInt < 2 ^ 19 := by
  have hlt := BitVec.toInt_lt (x := BitVec.ofInt 32 (p.toInt * pageSize))
  change int32 (p.toInt * pageSize) < 2 ^ 31 at hlt
  have hsize : (pageSize : ℤ) = 4096 := rfl
  rw [hexact, hsize] at hlt
  omega

/-- A disk on which a file is open and stands at some byte. -/
def openAt (fd : ℤ) (pos : ℕ) : DiskManager where
  dir _ := none
  nextInode := 1
  contents _ := []
  openFiles fd' := if fd' = fd then some ⟨0, pos⟩ else none
  path2fd _ := none
  fd2path _ := none

theorem openAt_pos (fd : ℤ) (pos : ℕ) : ((openAt fd pos).openFiles fd).map OpenFile.pos = some pos := by
  simp [openAt]

/-- There is a place at which a page that the seek does not find meets any other. -/
theorem meets_of_neg (fd : ℤ) (hexact : int32 (p.toInt * pageSize) = p.toInt * pageSize) (hneg : p.toInt < 0) (q : BitVec 32) :
    ∃ disk disk' : DiskManager, ∃ pos, disk.start (pageOf fd p) = some pos ∧
      disk'.start (pageOf fd q) = some pos := by
  have hfile : ((openAt fd 0).inodeOf fd).isSome := by simp [openAt, inodeOf]
  have hfrom : ∃ pos, (openAt fd 0).start (pageOf fd q) = some pos := by
    have hinode := inodeOf_lseek (openAt fd 0) fd (int32 (q.toInt * pageSize)) fd
    rw [← hinode, inodeOf, Option.isSome_map] at hfile
    obtain ⟨file, hseeked⟩ := Option.isSome_iff_exists.mp hfile
    refine ⟨file.pos, ?_⟩
    rw [start, pageOf, hseeked]
    rfl
  obtain ⟨pos, hpos⟩ := hfrom
  refine ⟨openAt fd pos, openAt fd 0, pos, ?_, hpos⟩
  rw [start_of_neg hexact hneg, openAt_pos]

theorem OffsetsRight.lt_left (h : OffsetsRight fd p q) : p.toNat < 2 ^ 19 := by
  have hexact := h.exact p List.mem_cons_self
  have hbound := exact_bound hexact
  by_cases hneg : p.toInt < 0
  · obtain ⟨disk, disk', pos, hp, hq⟩ := meets_of_neg fd hexact hneg q
    have hsize : pageSize = 4096 := rfl
    rcases h.disjoint disk disk' pos pos hp hq with hle | hle <;> omega
  · have htoNat := BitVec.toInt_eq_toNat_cond p
    have hlt := p.isLt
    split at htoNat <;> omega

theorem OffsetsRight.symm (h : OffsetsRight fd p q) : OffsetsRight fd q p := by
  constructor
  · intro pageNo hmem
    apply h.exact
    simp only [List.mem_cons, List.not_mem_nil, or_false] at hmem ⊢
    exact hmem.symm
  · intro disk disk' from_q from_p hq hp
    exact (h.disjoint disk' disk from_p from_q hp hq).symm

theorem offsetsRight_of_lt (hltp : p.toNat < 2 ^ 19) (hltq : q.toNat < 2 ^ 19) (hne : p ≠ q) :
    OffsetsRight fd p q := by
  constructor
  · intro pageNo hmem
    have hlt : pageNo.toNat < 2 ^ 19 := by
      simp only [List.mem_cons, List.not_mem_nil, or_false] at hmem
      rcases hmem with rfl | rfl
      · exact hltp
      · exact hltq
    have hreach : (pageOf fd pageNo).InReach := inReach_of_lt hlt
    exact int32_eq hreach.offset hreach.fits
  · intro disk disk' from_p from_q hstartp hstartq
    rw [start_eq_of_lt hltp hstartp, start_eq_of_lt hltq hstartq]
    have hnat : p.toNat ≠ q.toNat := fun heq => hne (BitVec.eq_of_toNat_eq heq)
    have hsize : pageSize = 4096 := rfl
    rw [hsize]
    omega

/-- The seeks for two pages of a file are right just when the file has no more than half a million pages
up to either of them. -/
theorem offsetsRight_iff {counters counters' next next' : ℤ → BitVec 32}
    (_hp : allocatePage fd counters = some (p, next)) (_hq : allocatePage fd counters' = some (q, next'))
    (hne : p ≠ q) : OffsetsRight fd p q ↔ p.toNat < 2 ^ 19 ∧ q.toNat < 2 ^ 19 := by
  constructor
  · exact fun h => ⟨h.lt_left, h.symm.lt_left⟩
  · intro ⟨hltp, hltq⟩
    exact offsetsRight_of_lt hltp hltq hne

theorem offsetsRight_first : (0 : BitVec 32) ≠ 1 ∧ OffsetsRight 3 0 1 := by
  have hne : (0 : BitVec 32) ≠ 1 := by decide
  have hfirst : allocatePage 3 (fun _ => 0) = some (0, Function.update (fun _ => 0) 3 1) := rfl
  have hsecond : allocatePage 3 (fun _ => 1) = some (1, Function.update (fun _ => 1) 3 2) := rfl
  exact ⟨hne, (offsetsRight_iff hfirst hsecond hne).mpr (by decide)⟩

/-- The offset of page `2 ^ 20` is that of page 0, which it overwrites. -/
theorem not_offsetsRight_large : ∃ next next' disk',
    allocatePage 3 (fun _ => 0) = some (0, next) ∧ allocatePage 3 (fun _ => 1048576) = some (1048576, next') ∧
      ¬OffsetsRight 3 0 1048576 ∧
      writePage (pageOf 3 1048576) (List.replicate pageSize 7) (openAt 3 0) = some disk' ∧
      disk'.onDisk (pageOf 3 0) = List.replicate pageSize 7 := by
  obtain ⟨disk', hwrite⟩ : ∃ disk',
      writePage (pageOf 3 1048576) (List.replicate pageSize 7) (openAt 3 0) = some disk' := ⟨_, rfl⟩
  refine ⟨_, _, disk', rfl, rfl, ?_, hwrite, ?_⟩
  · intro h
    exact absurd h.symm.lt_left (by decide)
  · obtain ⟨inode, pos, hopen, hstart, hcontents⟩ := writePage_at hwrite
    have hinode : inode = 0 := Option.some.inj (hopen.symm.trans rfl)
    have hpos : pos = 0 := Option.some.inj (hstart.symm.trans rfl)
    have hopen' : disk'.inodeOf (pageOf 3 0).fd = some 0 := (inodeOf_writePage hwrite 3).trans rfl
    simp only [onDisk, hopen', pageIn, hcontents, hinode, hpos, Function.update_self]
    have hoffset : ((pageOf 3 0).pageNo * (pageSize : ℤ)).toNat = 0 := by decide
    have hwindow := Sparse.window_overwrite 0 ((openAt 3 0).contents 0) 0 (List.replicate pageSize (7 : UInt8))
    rw [List.length_replicate] at hwindow
    rw [hoffset]
    exact hwindow

end Rmdb.DiskManager
