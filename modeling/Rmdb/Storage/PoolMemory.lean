import Rmdb.Storage.DiskManager
import Rmdb.Storage.PoolRuns
import Rmdb.Lib.Runs

/-! The pool and the files of the disk manager together are one memory of pages. -/
namespace Rmdb

open Program

/-- A call, or a write through the pointer to a frame. -/
inductive PoolUse (n : ℕ) where
  | call (call : PoolCall)
  | write (f : Fin n) (data : Bytes)

/-- The pool, with what each page should hold: the bytes written last, or else the bytes that were on
disk. A page is unmarked that was written since the last unpin with the dirty flag. -/
structure PoolMemory (n : ℕ) where
  pool : BufferPoolManager n DiskManager
  mem : PageId → Bytes
  unmarked : PageId → Bool

namespace PoolMemory

open BufferPoolManager

variable {n : ℕ}

def start (fds : Fin n → ℤ) (disk : DiskManager) (fd2pageno : ℤ → ℤ) : PoolMemory n where
  pool := .start fds disk fd2pageno
  mem := disk.onDisk
  unmarked _ := false

/-- Which pages are unmarked after a call. -/
def unmark (s : PoolMemory n) : PoolCall → PageId → Bool
  | .unpinPage id isDirty => if isDirty then Function.update s.unmarked id false else s.unmarked
  | _ => s.unmarked

def step : PoolUse n → PoolMemory n → Option (PoolMemory n)
  | .call call, s => (BufferPoolManager.step DiskManager.io s.pool call).map fun pool =>
      { s with pool, unmarked := s.unmark call }
  | .write f data, s =>
    let id := (s.pool.pages f).id
    some {
      pool := s.pool.modifyPage f fun page => { page with data }
      mem := Function.update s.mem id data
      unmarked := Function.update s.unmarked id true }

/-- A page of an open file that the file's counter has passed. -/
structure Known (pool : BufferPoolManager n DiskManager) (id : PageId) : Prop extends id.InReach where
  opened : (pool.disk.inodeOf id.fd).isSome
  counted : id.pageNo < pool.fd2pageno id.fd

/-- Pages fetched are known, new pages are unused ones of open files, frames are written while they are
pinned, and who wrote says so at the unpin: at the latest at the last one. Pages are not deleted. -/
def Allowed : PoolUse n → PoolMemory n → Prop
  | .call (.fetchPage id), s => Known s.pool id
  | .call (.newPage (some fd)), s =>
    let id : PageId := ⟨fd, s.pool.fd2pageno fd⟩
    id.InReach ∧ (s.pool.disk.inodeOf fd).isSome ∧ 0 ≤ fd ∧ fd < maxFd ∧
      s.mem id = List.replicate pageSize 0
  | .call (.unpinPage id isDirty), s => ∀ f, s.pool.pageTable id = some f →
      (s.pool.pages f).pinCount = 1 → s.unmarked id = true → isDirty = true
  | .call (.deletePage _), _ => False
  | .call _, _ => True
  | .write f data, s => 0 < (s.pool.pages f).pinCount ∧ data.length = pageSize

/-- The pages in the pool are as they should be, and so are the pages on disk that are not in the pool or
clean. -/
structure Refines (s : PoolMemory n) : Prop where
  inv : Inv s.pool
  distinct : s.pool.disk.Distinct
  idle : ∀ f ∈ s.pool.freeList,
    (s.pool.pages f).id.pageNo = invalidPageNo ∧ (s.pool.pages f).isDirty = false
  mapped : ∀ f, f ∉ s.pool.freeList → s.pool.pageTable (s.pool.pages f).id = some f
  known : ∀ id f, s.pool.pageTable id = some f → Known s.pool id
  data : ∀ id f, s.pool.pageTable id = some f → (s.pool.pages f).data = s.mem id
  length : ∀ id f, s.pool.pageTable id = some f → (s.mem id).length = pageSize
  unmarked : ∀ id, s.unmarked id = true →
    ∃ f, s.pool.pageTable id = some f ∧ 0 < (s.pool.pages f).pinCount
  stored : ∀ id : PageId, id.InReach → s.unmarked id = false →
    (∀ f, s.pool.pageTable id = some f → (s.pool.pages f).isDirty = false) → s.pool.disk.onDisk id = s.mem id

variable {s s' : PoolMemory n} {pool' claimed : BufferPoolManager n DiskManager} {f : Fin n} {id : PageId}

theorem start_refines (fds : Fin n → ℤ) {disk : DiskManager} (hdistinct : disk.Distinct) (fd2pageno : ℤ → ℤ) :
    Refines (start fds disk fd2pageno) where
  inv := start_inv fds disk fd2pageno
  distinct := hdistinct
  idle _ _ := ⟨rfl, rfl⟩
  mapped f hf := absurd (List.mem_finRange f) hf
  known := nofun
  data := nofun
  length := nofun
  unmarked := nofun
  stored _ _ _ _ := rfl

/-- The frames stay where they are. -/
theorem Refines.inPlace (h : Refines s) (hinv : Inv s'.pool) (hfree : s'.pool.freeList = s.pool.freeList)
    (htable : s'.pool.pageTable = s.pool.pageTable) (hid : ∀ f, (s'.pool.pages f).id = (s.pool.pages f).id)
    (hcount : s'.pool.fd2pageno = s.pool.fd2pageno)
    (hinode : ∀ fd, s'.pool.disk.inodeOf fd = s.pool.disk.inodeOf fd)
    (hidle : ∀ f ∈ s.pool.freeList, (s'.pool.pages f).isDirty = (s.pool.pages f).isDirty)
    (hdata : ∀ id f, s.pool.pageTable id = some f →
      (s'.pool.pages f).data = s'.mem id ∧ (s'.mem id).length = pageSize)
    (hunmarked : ∀ id, s'.unmarked id = true →
      ∃ f, s.pool.pageTable id = some f ∧ 0 < (s'.pool.pages f).pinCount)
    (hstored : ∀ id : PageId, id.InReach → s'.unmarked id = false →
      (∀ f, s.pool.pageTable id = some f → (s'.pool.pages f).isDirty = false) →
      s'.pool.disk.onDisk id = s'.mem id) : Refines s' where
  inv := hinv
  distinct fd fd' inode hopen hopen' := by
    rw [hinode] at hopen hopen'
    exact h.distinct fd fd' inode hopen hopen'
  idle f hf := by
    rw [hfree] at hf
    rw [hid, hidle f hf]
    exact h.idle f hf
  mapped f hf := by
    rw [hfree] at hf
    rw [hid, htable]
    exact h.mapped f hf
  known id f hf := by
    rw [htable] at hf
    have hknown := h.known id f hf
    exact ⟨hknown.toInReach, by rw [hinode]; exact hknown.opened, by rw [hcount]; exact hknown.counted⟩
  data id f hf := (hdata id f (htable ▸ hf)).1
  length id f hf := (hdata id f (htable ▸ hf)).2
  unmarked id hid := by
    rw [htable]
    exact hunmarked id hid
  stored id hreach hmark hclean := hstored id hreach hmark (htable ▸ hclean)

@[simp] theorem modifyPage_self (pool : BufferPoolManager n DiskManager) (f : Fin n) (g : Page → Page) :
    (pool.modifyPage f g).pages f = g (pool.pages f) := Function.update_self ..

theorem modifyPage_ne (pool : BufferPoolManager n DiskManager) {f f' : Fin n} (g : Page → Page) (h : f' ≠ f) :
    (pool.modifyPage f g).pages f' = pool.pages f' := Function.update_of_ne h ..

/-- What a change of one frame does not touch is as before. -/
theorem modifyPage_congr {α : Type} (view : Page → α) (pool : BufferPoolManager n DiskManager) (f : Fin n)
    {g : Page → Page} (h : view (g (pool.pages f)) = view (pool.pages f)) (f' : Fin n) :
    view ((pool.modifyPage f g).pages f') = view (pool.pages f') := by
  by_cases heq : f' = f
  · rw [heq, modifyPage_self, h]
  · rw [modifyPage_ne pool g heq]

section
variable (h : Refines s)
include h

/-- A page of the pool is written to its place on disk. -/
theorem Refines.writeOut (hmapped : s.pool.pageTable id = some f) :
    ∃ disk, DiskManager.io.writePage id (s.pool.pages f).data s.pool.disk = some disk ∧
      Refines { s with pool :=
        { s.pool with disk }.modifyPage f fun page => { page with isDirty := false } } := by
  have hknown := h.known id f hmapped
  have hdata := h.data id f hmapped
  have hlen := h.length id f hmapped
  obtain ⟨inode, hopen⟩ := Option.isSome_iff_exists.mp hknown.opened
  obtain ⟨disk, hwrite, hinode, hself, hothers⟩ :=
    h.distinct.writePage hopen hknown.toInReach (hdata ▸ hlen)
  have hsame := Same.clean s.pool disk f
  refine ⟨disk, hwrite, h.inPlace (h.inv.same hsame) rfl rfl hsame.id rfl hinode ?_ ?_ ?_ ?_⟩
  · intro f' hf'
    have hne : f' ≠ f := fun heq => h.inv.notFree id f hmapped (heq ▸ hf')
    rw [modifyPage_ne _ _ hne]
  · intro id' f' hmapped'
    have hkept := modifyPage_congr Page.data { s.pool with disk } f
      (g := fun page => { page with isDirty := false }) rfl f'
    exact ⟨hkept.trans (h.data id' f' hmapped'), h.length id' f' hmapped'⟩
  · intro id' hmark
    obtain ⟨f', hmapped', hpin⟩ := h.unmarked id' hmark
    rw [← hsame.pinCount] at hpin
    exact ⟨f', hmapped', hpin⟩
  · intro id' hreach hmark hclean
    by_cases heq : id' = id
    · subst heq
      exact hself.trans hdata
    · refine (hothers id' hreach heq).trans (h.stored id' hreach hmark fun f' hmapped' => ?_)
      have hne : f' ≠ f := fun hf => heq (h.inv.injective id' id f (hf ▸ hmapped') hmapped)
      have := hclean f' hmapped'
      rwa [modifyPage_ne _ _ hne] at this

theorem Refines.flushPage (id : PageId) :
    ∃ res pool, runFrom (BufferPoolManager.flushPage DiskManager.io id) s.pool = (.ok res, pool) ∧
      Refines { s with pool } := by
  simp only [BufferPoolManager.flushPage, runFrom_bind, runFrom_get]
  cases hmapped : s.pool.pageTable id with
  | none => exact ⟨false, s.pool, rfl, h⟩
  | some f =>
    have hvalid : id.pageNo ≠ invalidPageNo := by
      have := (h.known id f hmapped).nonneg
      unfold invalidPageNo
      omega
    obtain ⟨disk, hwrite, hrefines⟩ := h.writeOut hmapped
    simp only [if_neg hvalid, hwrite]
    exact ⟨true, _, rfl, hrefines⟩

theorem Refines.flushFrame (fd : ℤ) (f : Fin n) :
    ∃ pool, runFrom (BufferPoolManager.flushFrame DiskManager.io fd f) s.pool = (.ok (), pool) ∧
      Refines { s with pool } := by
  simp only [BufferPoolManager.flushFrame, runFrom_bind, runFrom_get]
  split
  · rename_i hpage
    have hfree : f ∉ s.pool.freeList := fun hmem => hpage.2 (h.idle f hmem).1
    obtain ⟨disk, hwrite, hrefines⟩ := h.writeOut (h.mapped f hfree)
    simp only [hwrite]
    exact ⟨_, rfl, hrefines⟩
  · exact ⟨s.pool, rfl, h⟩

theorem Refines.flushAllPages (fd : ℤ) :
    ∃ pool, runFrom (BufferPoolManager.flushAllPages DiskManager.io fd) s.pool = (.ok (), pool) ∧
      Refines { s with pool } := by
  unfold BufferPoolManager.flushAllPages
  generalize List.finRange n = frames
  induction frames generalizing s with
  | nil => exact ⟨s.pool, rfl, h⟩
  | cons f frames ih =>
    obtain ⟨pool, hrun, hrefines⟩ := h.flushFrame fd f
    obtain ⟨pool', hrun', hrefines'⟩ := ih hrefines
    refine ⟨pool', ?_, hrefines'⟩
    rw [runFrom_forM_cons, hrun]
    exact hrun'

/-! ### Frames that change their page -/

/-- The victim's page is on disk before the frame is given away. -/
theorem Refines.evict (hvictim : s.pool.victimOf = some (f, claimed)) :
    ∃ disk, claimed.writeBack DiskManager.io f = some disk ∧
      (∀ fd, disk.inodeOf fd = s.pool.disk.inodeOf fd) ∧
      ∀ id : PageId, id.InReach → s.unmarked id = false →
        (∀ g, s.pool.pageTable id = some g → g ≠ f → (s.pool.pages g).isDirty = false) →
        disk.onDisk id = s.mem id := by
  have hclaims := h.inv.claims hvictim
  obtain ⟨_, _, hdisk, _⟩ := victimOf_fields hvictim
  by_cases hwritten : (s.pool.pages f).id.pageNo ≠ invalidPageNo ∧ (s.pool.pages f).isDirty = true
  · have hfree : f ∉ s.pool.freeList := fun hmem => hwritten.1 (h.idle f hmem).1
    have hmapped := h.mapped f hfree
    have hknown := h.known _ f hmapped
    have hdata := h.data _ f hmapped
    have hlen := h.length _ f hmapped
    obtain ⟨inode, hopen⟩ := Option.isSome_iff_exists.mp hknown.opened
    obtain ⟨disk, hwrite, hinode, hself, hothers⟩ :=
      h.distinct.writePage hopen hknown.toInReach (hdata ▸ hlen)
    refine ⟨disk, ?_, hinode, fun id hreach hmark hclean => ?_⟩
    · rw [writeBack, hclaims.pages, hdisk]
      exact (if_pos hwritten).trans hwrite
    · by_cases heq : id = (s.pool.pages f).id
      · rw [heq, hself, hdata]
      · refine (hothers id hreach heq).trans (h.stored id hreach hmark fun g hg => hclean g hg ?_)
        exact fun hgf => heq (h.inv.carries id f (hgf ▸ hg)).symm
  · refine ⟨s.pool.disk, ?_, fun _ => rfl, fun id hreach hmark hclean => h.stored id hreach hmark fun g hg => ?_⟩
    · rw [writeBack, hclaims.pages, hdisk]
      exact if_neg hwritten
    · by_cases hgf : g = f
      · -- The frame of a page is clean, or its page would have been written.
        have hvalid : (s.pool.pages g).id.pageNo ≠ invalidPageNo := by
          have hnonneg := (h.known id g hg).nonneg
          rw [h.inv.carries id g hg]
          unfold invalidPageNo
          omega
        rw [hgf] at hvalid ⊢
        exact Bool.eq_false_iff.mpr fun hdirty => hwritten ⟨hvalid, hdirty⟩
      · exact hclean g hg hgf

/-- The frame of the victim gets a page that the pool does not hold. -/
theorem Refines.install (hvictim : s.pool.victimOf = some (f, claimed)) {disk : DiskManager}
    (hinode : ∀ fd, disk.inodeOf fd = s.pool.disk.inodeOf fd)
    (hstored : ∀ id : PageId, id.InReach → s.unmarked id = false →
      (∀ g, s.pool.pageTable id = some g → g ≠ f → (s.pool.pages g).isDirty = false) →
      disk.onDisk id = s.mem id)
    (hnew : s.pool.pageTable id = none) (hlen : (s.mem id).length = pageSize) (page : Page) (hid : page.id = id)
    (hpin : page.pinCount = 1) (hdata : page.data = s.mem id) (hfree : pool'.freeList = claimed.freeList)
    (hreplacer : pool'.replacer = claimed.replacer.pin f)
    (hpages : pool'.pages = Function.update claimed.pages f page)
    (htable : pool'.pageTable =
      Function.update (Function.update claimed.pageTable (claimed.pages f).id none) id (some f))
    (hdisk : DiskManager.SameFiles disk pool'.disk) (hcount : ∀ fd, s.pool.fd2pageno fd ≤ pool'.fd2pageno fd)
    (hknown : Known pool' id) : Refines { s with pool := pool' } := by
  have hclaims := h.inv.claims hvictim
  have hinv := hclaims.install h.inv hid hpin hfree hreplacer hpages htable
  rw [hclaims.pages] at hpages htable
  rw [hclaims.pageTable] at htable
  have hmapped : ∀ id' g, pool'.pageTable id' = some g →
      (id' = id ∧ g = f) ∨ (id' ≠ id ∧ g ≠ f ∧ s.pool.pageTable id' = some g) := by
    intro id' g hg
    rw [htable, Function.update_apply] at hg
    split at hg
    · exact .inl ⟨‹_›, (Option.some.inj hg).symm⟩
    · rename_i hne
      rw [Function.update_apply] at hg
      split at hg
      · exact absurd hg nofun
      · rename_i hold
        exact .inr ⟨hne, fun heq => hold (h.inv.carries id' f (heq ▸ hg)).symm, hg⟩
  have hkept : ∀ id' g, g ≠ f → s.pool.pageTable id' = some g → pool'.pageTable id' = some g := by
    intro id' g hne hg
    have hnew' : id' ≠ id := by
      intro heq
      rw [heq, hnew] at hg
      exact absurd hg nofun
    have hold : id' ≠ (s.pool.pages f).id := by
      intro heq
      -- The old page of the frame is its own, or is no page.
      by_cases hidle : f ∈ s.pool.freeList
      · have hnonneg := (h.known id' g hg).nonneg
        have hinvalid := (h.idle f hidle).1
        rw [← heq] at hinvalid
        unfold invalidPageNo at hinvalid
        omega
      · exact hne (Option.some.inj (hg.symm.trans (heq ▸ h.mapped f hidle)))
    rw [htable, Function.update_of_ne hnew', Function.update_of_ne hold, hg]
  have hself : pool'.pages f = page := by rw [hpages, Function.update_self]
  have hother : ∀ g, g ≠ f → pool'.pages g = s.pool.pages g := by
    intro g hg
    rw [hpages, Function.update_of_ne hg]
  have hinode' : ∀ fd, pool'.disk.inodeOf fd = s.pool.disk.inodeOf fd :=
    fun fd => (hdisk.inodeOf fd).trans (hinode fd)
  refine ⟨hinv, ?_, ?_, ?_, ?_, ?_, ?_, ?_, ?_⟩
  · intro fd fd' inode hopen hopen'
    rw [hinode'] at hopen hopen'
    exact h.distinct fd fd' inode hopen hopen'
  · intro g hg
    rw [hfree, hclaims.free] at hg
    rw [hother g hg.1]
    exact h.idle g hg.2
  · intro g hg
    rw [hfree, hclaims.free] at hg
    by_cases heq : g = f
    · rw [heq, hself, hid, htable, Function.update_self]
    · rw [hother g heq]
      exact hkept _ g heq (h.mapped g fun hmem => hg ⟨heq, hmem⟩)
  · intro id' g hg
    rcases hmapped id' g hg with ⟨rfl, _⟩ | ⟨_, _, hg⟩
    · exact hknown
    · have hold := h.known id' g hg
      exact ⟨hold.toInReach, by rw [hinode']; exact hold.opened, Int.lt_of_lt_of_le hold.counted (hcount _)⟩
  · intro id' g hg
    rcases hmapped id' g hg with ⟨rfl, rfl⟩ | ⟨_, hne, hg⟩
    · rw [hself, hdata]
    · rw [hother g hne]
      exact h.data id' g hg
  · intro id' g hg
    rcases hmapped id' g hg with ⟨rfl, _⟩ | ⟨_, _, hg⟩
    · exact hlen
    · exact h.length id' g hg
  · intro id' hmark
    obtain ⟨g, hg, hpinned⟩ := h.unmarked id' hmark
    have hne : g ≠ f := by
      intro heq
      rw [heq, hclaims.unpinned] at hpinned
      exact absurd hpinned (Int.lt_irrefl 0)
    exact ⟨g, hkept id' g hne hg, by rw [hother g hne]; exact hpinned⟩
  · intro id' hreach hmark hall
    rw [hdisk.onDisk]
    refine hstored id' hreach hmark fun g hg hne => ?_
    have := hall g (hkept id' g hne hg)
    rwa [hother g hne] at this

/-! ### The calls -/

/-- A frame of the pool is pinned or unpinned, perhaps with the dirty flag. -/
theorem Refines.repin (hmapped : s.pool.pageTable id = some f) {replacer : LruReplacer n}
    {g : Page → Page} (dirty : Bool) (unmarked : PageId → Bool) (hid : (g (s.pool.pages f)).id = (s.pool.pages f).id)
    (hdata : (g (s.pool.pages f)).data = (s.pool.pages f).data)
    (hdirty : (g (s.pool.pages f)).isDirty = ((s.pool.pages f).isDirty || dirty))
    (hinv : BufferPoolManager.Inv ({ s.pool with replacer }.modifyPage f g))
    (hmark : ∀ id', unmarked id' = true → s.unmarked id' = true ∧ (id' = id → 0 < (g (s.pool.pages f)).pinCount))
    (hunmark : ∀ id', unmarked id' = false → s.unmarked id' = false ∨ (id' = id ∧ dirty = true)) :
    Refines { s with pool := { s.pool with replacer }.modifyPage f g, unmarked } := by
  have hne : ∀ id' f', id' ≠ id → s.pool.pageTable id' = some f' → f' ≠ f :=
    fun id' f' hid' hf' heq => hid' (h.inv.injective id' id f (heq ▸ hf') hmapped)
  have hself : ({ s.pool with replacer }.modifyPage f g).pages f = g (s.pool.pages f) := modifyPage_self _ _ _
  have hother : ∀ f', f' ≠ f → ({ s.pool with replacer }.modifyPage f g).pages f' = s.pool.pages f' :=
    fun f' hf' => modifyPage_ne _ g hf'
  refine h.inPlace hinv rfl rfl (modifyPage_congr Page.id { s.pool with replacer } f hid) rfl (fun _ => rfl)
    ?_ ?_ ?_ ?_
  · intro f' hf'
    have hf : f' ≠ f := fun heq => h.inv.notFree id f hmapped (heq ▸ hf')
    rw [hother f' hf]
  · intro id' f' hf'
    have hkept := modifyPage_congr Page.data { s.pool with replacer } f hdata f'
    exact ⟨hkept.trans (h.data id' f' hf'), h.length id' f' hf'⟩
  · intro id' hid'
    obtain ⟨hmark', hpos⟩ := hmark id' hid'
    obtain ⟨f', hf', hpin⟩ := h.unmarked id' hmark'
    refine ⟨f', hf', ?_⟩
    by_cases heq : id' = id
    · obtain rfl : f' = f := Option.some.inj (hf'.symm.trans (heq ▸ hmapped))
      rw [hself]
      exact hpos heq
    · rw [hother f' (hne id' f' heq hf')]
      exact hpin
  · intro id' hreach hid' hclean
    have hmark' : s.unmarked id' = false := by
      rcases hunmark id' hid' with hmark' | ⟨rfl, rfl⟩
      · exact hmark'
      · have hflag := hclean f hmapped
        rw [hself, hdirty, Bool.or_true] at hflag
        exact absurd hflag nofun
    refine h.stored id' hreach hmark' fun f' hf' => ?_
    have hflag := hclean f' hf'
    by_cases heq : f' = f
    · rw [heq, hself, hdirty, Bool.or_eq_false_iff] at hflag
      rw [heq]
      exact hflag.1
    · rwa [hother f' heq] at hflag

/-- A page is fetched with the bytes that it should hold. -/
theorem Refines.fetchPage (hknown : Known s.pool id) :
    ∃ res pool, runFrom (BufferPoolManager.fetchPage DiskManager.io id) s.pool = (.ok res, pool) ∧
      Refines { s with pool } ∧ ∀ f, res = some f → (pool.pages f).data = s.mem id := by
  cases hmapped : s.pool.pageTable id with
  | some f =>
    have hrun : runFrom (BufferPoolManager.fetchPage DiskManager.io id) s.pool = (.ok (some f),
        { s.pool with replacer := s.pool.replacer.pin f }.modifyPage f
          fun page => { page with pinCount := page.pinCount + 1 }) := by
      simp only [BufferPoolManager.fetchPage, runFrom_bind, runFrom_get, hmapped, runFrom_modify, runFrom_pure]
    have hstep : BufferPoolManager.step DiskManager.io s.pool (.fetchPage id) =
        some ({ s.pool with replacer := s.pool.replacer.pin f }.modifyPage f
          fun page => { page with pinCount := page.pinCount + 1 }) := by
      simp only [BufferPoolManager.step, exec, runFrom_discard, hrun, Except.map]
    have hsound : Sound DiskManager.io s.pool (.fetchPage id) :=
      fun _ _ hnone => absurd (hmapped.symm.trans hnone) (by simp)
    have hinv := (h.inv.fetchPage id).1 hsound _ hstep
    have hpin := h.inv.pinCount_nonneg f
    refine ⟨some f, _, hrun, h.repin hmapped false s.unmarked rfl rfl (Bool.or_false _).symm hinv ?_ ?_, ?_⟩
    · intro id' hmark
      refine ⟨hmark, fun _ => ?_⟩
      change 0 < (s.pool.pages f).pinCount + 1
      omega
    · exact fun id' hmark => .inl hmark
    · intro f' hf'
      obtain rfl := Option.some.inj hf'
      rw [modifyPage_self]
      exact h.data id f hmapped
  | none =>
    cases hvictim : s.pool.victimOf with
    | none =>
      refine ⟨none, s.pool, ?_, h, by simp⟩
      simp only [BufferPoolManager.fetchPage, runFrom_bind, runFrom_get, hmapped, runFrom_findVictimPage,
        hvictim, runFrom_pure]
    | some victim =>
      obtain ⟨f, claimed⟩ := victim
      obtain ⟨disk, hwrite, hinode, hstored⟩ := h.evict hvictim
      obtain ⟨inode, hopen⟩ := Option.isSome_iff_exists.mp hknown.opened
      obtain ⟨disk', hread, hsame⟩ := DiskManager.readPage_spec ((hinode id.fd).trans hopen) hknown.toInReach
      have hclaims := h.inv.claims hvictim
      obtain ⟨_, _, hdisk, hcount⟩ := victimOf_fields hvictim
      have hmem : disk.onDisk id = s.mem id := by
        have hmark : s.unmarked id = false := by
          apply Bool.eq_false_iff.mpr
          intro hmark
          obtain ⟨g, hg, _⟩ := h.unmarked id hmark
          exact absurd (hmapped.symm.trans hg) (by simp)
        refine hstored id hknown.toInReach hmark fun g hg => ?_
        exact absurd (hmapped.symm.trans hg) (by simp)
      have hlen : (s.mem id).length = pageSize := by
        rw [← hmem, DiskManager.onDisk, hinode, hopen]
        exact Sparse.length_window ..
      rw [hmem] at hread
      have hread' : DiskManager.io.readPage id disk = some (s.mem id, disk') := hread
      let page : Page := { claimed.pages f with
        id := id
        data := s.mem id
        isDirty := (claimed.pages f).isDirty && (claimed.pages f).id.pageNo = invalidPageNo
        pinCount := 1 }
      obtain ⟨pool', hrun, hfree, hreplacer, hpages, htable, hdisk', hcount'⟩ :
          ∃ pool', runFrom (BufferPoolManager.fetchPage DiskManager.io id) s.pool = (.ok (some f), pool') ∧
            pool'.freeList = claimed.freeList ∧ pool'.replacer = claimed.replacer.pin f ∧
            pool'.pages = Function.update claimed.pages f page ∧
            pool'.pageTable =
              Function.update (Function.update claimed.pageTable (claimed.pages f).id none) id (some f) ∧
            pool'.disk = disk' ∧ pool'.fd2pageno = claimed.fd2pageno := by
        simp only [BufferPoolManager.fetchPage, runFrom_bind, runFrom_get, hmapped, runFrom_findVictimPage,
          hvictim, runFrom_updatePage, hwrite, modifyPage, hread', runFrom_modify, runFrom_pure]
        refine ⟨_, rfl, rfl, rfl, ?_, rfl, rfl, rfl⟩
        rw [Function.update_idem, Function.update_self]
      have hknown' : Known pool' id := by
        refine ⟨hknown.toInReach, ?_, ?_⟩
        · rw [hdisk', hsame.inodeOf, hinode]
          exact hknown.opened
        · rw [hcount', hcount]
          exact hknown.counted
      refine ⟨some f, pool', hrun, ?_, ?_⟩
      · apply h.install hvictim hinode hstored hmapped hlen page rfl rfl rfl hfree hreplacer hpages htable
        · rw [hdisk']
          exact hsame
        · exact fun fd => Int.le_of_eq (congrFun (hcount'.trans hcount).symm fd)
        · exact hknown'
      · intro f' hf'
        obtain rfl := Option.some.inj hf'
        rw [hpages, Function.update_self]

/-- A new page is an unused one, and comes with the bytes that it should hold. -/
theorem Refines.newPage (fd : Option ℤ) (hallowed : Allowed (n := n) (.call (.newPage fd)) s) :
    ∃ res pool, runFrom (BufferPoolManager.newPage DiskManager.io fd) s.pool = (.ok res, pool) ∧
      Refines { s with pool } := by
  cases fd with
  | none => exact ⟨none, s.pool, rfl, h⟩
  | some fd =>
    obtain ⟨hreach, hopened, hnonneg, hmax, hzeros⟩ := hallowed
    cases hvictim : s.pool.victimOf with
    | none =>
      refine ⟨none, s.pool, ?_, h⟩
      simp only [BufferPoolManager.newPage, runFrom_bind, runFrom_findVictimPage, hvictim, runFrom_pure]
    | some victim =>
      obtain ⟨f, claimed⟩ := victim
      obtain ⟨disk, hwrite, hinode, hstored⟩ := h.evict hvictim
      obtain ⟨_, _, hdisk, hcount⟩ := victimOf_fields hvictim
      have hnew : s.pool.pageTable ⟨fd, s.pool.fd2pageno fd⟩ = none := by
        cases hmapped : s.pool.pageTable ⟨fd, s.pool.fd2pageno fd⟩ with
        | none => rfl
        | some g => exact absurd (h.known _ g hmapped).counted (Int.lt_irrefl _)
      have hlen : (s.mem ⟨fd, s.pool.fd2pageno fd⟩).length = pageSize := by
        rw [hzeros, List.length_replicate]
      have hlow : ¬fd < 0 := by omega
      have hhigh : ¬maxFd ≤ fd := by omega
      have hwrite' : ∀ fd2pageno, { claimed with fd2pageno }.writeBack DiskManager.io f = some disk :=
        fun _ => hwrite
      let page : Page := { claimed.pages f with
        id := ⟨fd, s.pool.fd2pageno fd⟩
        data := List.replicate pageSize 0
        isDirty := (claimed.pages f).isDirty && (claimed.pages f).id.pageNo = invalidPageNo
        pinCount := 1 }
      obtain ⟨pool', hrun, hfree, hreplacer, hpages, htable, hdisk', hcount'⟩ :
          ∃ pool', runFrom (BufferPoolManager.newPage DiskManager.io (some fd)) s.pool = (.ok (some f), pool') ∧
            pool'.freeList = claimed.freeList ∧ pool'.replacer = claimed.replacer.pin f ∧
            pool'.pages = Function.update claimed.pages f page ∧
            pool'.pageTable = Function.update (Function.update claimed.pageTable (claimed.pages f).id none)
              ⟨fd, s.pool.fd2pageno fd⟩ (some f) ∧
            pool'.disk = disk ∧
            pool'.fd2pageno = Function.update s.pool.fd2pageno fd (s.pool.fd2pageno fd + 1) := by
        simp only [BufferPoolManager.newPage, runFrom_bind, runFrom_findVictimPage, hvictim, if_neg hlow,
          if_neg hhigh, runFrom_get, runFrom_modify, runFrom_updatePage, hwrite', modifyPage, runFrom_pure, hcount]
        refine ⟨_, rfl, rfl, rfl, ?_, rfl, rfl, rfl⟩
        rw [Function.update_idem, Function.update_self]
      refine ⟨some f, pool', hrun, ?_⟩
      apply h.install hvictim hinode hstored hnew hlen page rfl rfl hzeros.symm hfree hreplacer hpages htable
      · rw [hdisk']
        exact ⟨rfl, fun _ => rfl⟩
      · intro fd'
        rw [hcount']
        by_cases heq : fd' = fd
        · rw [heq, Function.update_self]
          omega
        · exact Int.le_of_eq (Function.update_of_ne heq ..).symm
      · refine ⟨hreach, ?_, ?_⟩
        · rw [hdisk', hinode]
          exact hopened
        · rw [hcount', Function.update_self]
          exact Int.lt_succ _

theorem Refines.unpinPage (id : PageId) (isDirty : Bool)
    (hallowed : Allowed (n := n) (.call (.unpinPage id isDirty)) s) :
    ∃ s', step (.call (.unpinPage id isDirty)) s = some s' ∧ Refines s' := by
  -- Where the call does nothing, the page is not in the pool or not pinned, and so not unmarked.
  have hidle : s.unmarked id = false → s.unmark (.unpinPage id isDirty) = s.unmarked := by
    intro hmark
    cases isDirty with
    | false => rfl
    | true => exact Function.update_eq_self_iff.mpr hmark.symm
  cases hmapped : s.pool.pageTable id with
  | none =>
    have hmark : s.unmarked id = false := by
      apply Bool.eq_false_iff.mpr
      intro hmark
      obtain ⟨f, hf, _⟩ := h.unmarked id hmark
      exact absurd (hmapped.symm.trans hf) (by simp)
    have hstep : BufferPoolManager.step DiskManager.io s.pool (.unpinPage id isDirty) = some s.pool := by
      simp only [BufferPoolManager.step, exec, runFrom_discard, BufferPoolManager.unpinPage, runFrom_bind,
        runFrom_get, hmapped, runFrom_pure, Except.map]
    refine ⟨s, ?_, h⟩
    rw [step, hstep, Option.map_some, hidle hmark]
  | some f =>
    by_cases hzero : (s.pool.pages f).pinCount = 0
    · have hmark : s.unmarked id = false := by
        apply Bool.eq_false_iff.mpr
        intro hmark
        obtain ⟨f', hf', hpin⟩ := h.unmarked id hmark
        obtain rfl := Option.some.inj (hmapped.symm.trans hf')
        omega
      have hstep : BufferPoolManager.step DiskManager.io s.pool (.unpinPage id isDirty) = some s.pool := by
        simp only [BufferPoolManager.step, exec, runFrom_discard, BufferPoolManager.unpinPage, runFrom_bind,
          runFrom_get, hmapped, hzero, if_true, runFrom_pure, Except.map]
      refine ⟨s, ?_, h⟩
      rw [step, hstep, Option.map_some, hidle hmark]
    · obtain ⟨replacer, hstep⟩ : ∃ replacer,
          BufferPoolManager.step DiskManager.io s.pool (.unpinPage id isDirty) =
            some ({ s.pool with replacer }.modifyPage f fun page => { page with
              pinCount := (s.pool.pages f).pinCount - 1
              isDirty := page.isDirty || isDirty }) := by
        simp only [BufferPoolManager.step, exec, runFrom_discard, BufferPoolManager.unpinPage, runFrom_bind,
          runFrom_get, hmapped, hzero, if_false, runFrom_modify, runFrom_pure, Except.map]
        exact ⟨_, rfl⟩
      have hinv := (h.inv.unpinPage id isDirty).1 trivial _ hstep
      have hpin := h.inv.pinCount_nonneg f
      have hrefines := h.repin hmapped isDirty (s.unmark (.unpinPage id isDirty)) rfl rfl rfl hinv ?_ ?_
      · exact ⟨_, by rw [step, hstep, Option.map_some], hrefines⟩
      · intro id' hmark
        cases isDirty with
        | false =>
          refine ⟨hmark, fun heq => ?_⟩
          have hlast : (s.pool.pages f).pinCount ≠ 1 := by
            intro hone
            exact absurd (hallowed f hmapped hone (heq ▸ hmark)) (by simp)
          change 0 < (s.pool.pages f).pinCount - 1
          omega
        | true =>
          by_cases heq : id' = id
          · have hupdated : s.unmark (.unpinPage id true) id' = false := by
              rw [heq]
              exact Function.update_self ..
            exact absurd (hmark.symm.trans hupdated) (by simp)
          · have hkept : s.unmark (.unpinPage id true) id' = s.unmarked id' := Function.update_of_ne heq ..
            exact ⟨hkept.symm.trans hmark, fun h => absurd h heq⟩
      · intro id' hmark
        cases isDirty with
        | false => exact .inl hmark
        | true =>
          by_cases heq : id' = id
          · exact .inr ⟨heq, rfl⟩
          · have hkept : s.unmark (.unpinPage id true) id' = s.unmarked id' := Function.update_of_ne heq ..
            exact .inl (hkept.symm.trans hmark)

theorem Refines.write (f : Fin n) (data : Bytes) (hpin : 0 < (s.pool.pages f).pinCount)
    (hlen : data.length = pageSize) : ∃ s', step (.write f data) s = some s' ∧ Refines s' := by
  refine ⟨_, rfl, ?_⟩
  have hfree : f ∉ s.pool.freeList := fun hmem => (h.inv.onePlace f).free_unpinned hmem hpin
  have hmapped := h.mapped f hfree
  have hsame : Same s.pool (s.pool.modifyPage f fun page => { page with data }) :=
    ⟨rfl, rfl, rfl, modifyPage_congr Page.id s.pool f rfl, modifyPage_congr Page.pinCount s.pool f rfl⟩
  have hne : ∀ id' f', id' ≠ (s.pool.pages f).id → s.pool.pageTable id' = some f' → f' ≠ f :=
    fun id' f' hid' hf' heq => hid' (h.inv.injective id' _ f (heq ▸ hf') hmapped)
  refine h.inPlace (h.inv.same hsame) rfl rfl hsame.id rfl (fun _ => rfl) ?_ ?_ ?_ ?_
  · exact fun f' _ => modifyPage_congr Page.isDirty s.pool f (g := fun page => { page with data }) rfl f'
  · intro id' f' hf'
    by_cases heq : id' = (s.pool.pages f).id
    · obtain rfl : f' = f := Option.some.inj (hf'.symm.trans (heq ▸ hmapped))
      simp only [heq, modifyPage_self, Function.update_self]
      exact ⟨trivial, hlen⟩
    · simp only [modifyPage_ne _ _ (hne id' f' heq hf'), Function.update_of_ne heq]
      exact ⟨h.data id' f' hf', h.length id' f' hf'⟩
  · intro id' hmark
    by_cases heq : id' = (s.pool.pages f).id
    · exact ⟨f, heq ▸ hmapped, by rw [hsame.pinCount]; exact hpin⟩
    · simp only [Function.update_of_ne heq] at hmark
      obtain ⟨f', hf', hpin'⟩ := h.unmarked id' hmark
      exact ⟨f', hf', by rw [hsame.pinCount]; exact hpin'⟩
  · intro id' hreach hmark hclean
    by_cases heq : id' = (s.pool.pages f).id
    · simp only [heq, Function.update_self] at hmark
      exact absurd hmark nofun
    · simp only [Function.update_of_ne heq] at hmark ⊢
      refine h.stored id' hreach hmark fun f' hf' => ?_
      have hflag := hclean f' hf'
      rwa [modifyPage_congr Page.isDirty s.pool f (g := fun page => { page with data }) rfl f'] at hflag

theorem Refines.step {use : PoolUse n} (hallowed : Allowed use s) :
    ∃ s', PoolMemory.step use s = some s' ∧ Refines s' := by
  cases use with
  | write f data => exact h.write f data hallowed.1 hallowed.2
  | call call =>
    cases call with
    | fetchPage id =>
      obtain ⟨res, pool, hrun, hrefines, _⟩ := h.fetchPage hallowed
      refine ⟨_, ?_, hrefines⟩
      simp only [PoolMemory.step, BufferPoolManager.step, exec, runFrom_discard, hrun, Except.map, Option.map_some,
        unmark]
    | newPage fd =>
      obtain ⟨res, pool, hrun, hrefines⟩ := h.newPage fd hallowed
      refine ⟨_, ?_, hrefines⟩
      simp only [PoolMemory.step, BufferPoolManager.step, exec, runFrom_discard, hrun, Except.map, Option.map_some,
        unmark]
    | unpinPage id isDirty => exact h.unpinPage id isDirty hallowed
    | flushPage id =>
      obtain ⟨res, pool, hrun, hrefines⟩ := h.flushPage id
      refine ⟨_, ?_, hrefines⟩
      simp only [PoolMemory.step, BufferPoolManager.step, exec, runFrom_discard, hrun, Except.map, Option.map_some,
        unmark]
    | deletePage id => exact hallowed.elim
    | flushAllPages fd =>
      obtain ⟨pool, hrun, hrefines⟩ := h.flushAllPages fd
      refine ⟨_, ?_, hrefines⟩
      simp only [PoolMemory.step, BufferPoolManager.step, exec, hrun, Option.map_some, unmark]

end

/-- After any allowed run a page of the files is fetched, if there is a frame for it, with the bytes that
were written to it last, or that it had on disk. -/
theorem fetchPage_lastWritten (fds : Fin n → ℤ) (disk : DiskManager) (hdistinct : disk.Distinct)
    (fd2pageno : ℤ → ℤ) (uses : List (PoolUse n))
    (hallowed : Runs.AllMeet step Allowed uses (start fds disk fd2pageno)) :
    ∃ s, Runs.run step uses (start fds disk fd2pageno) = some s ∧ ∀ id, Known s.pool id →
      ∃ res pool, runFrom (BufferPoolManager.fetchPage DiskManager.io id) s.pool = (.ok res, pool) ∧
        ∀ f, res = some f → (pool.pages f).data = s.mem id := by
  obtain ⟨s, hrun, hrefines⟩ := Runs.run_inv (fun _ _ h hmeets => Refines.step h hmeets)
    (start_refines fds hdistinct fd2pageno) hallowed
  refine ⟨s, hrun, fun id hknown => ?_⟩
  obtain ⟨res, pool, hfetch, _, hdata⟩ := hrefines.fetchPage hknown
  exact ⟨res, pool, hfetch, hdata⟩

/-- A disk with one open file, which is empty. -/
def oneFile : DiskManager where
  dir path := if path = "a" then some 0 else none
  nextInode := 1
  contents _ := []
  openFiles fd := if fd = 3 then some ⟨0, 0⟩ else none
  path2fd path := if path = "a" then some 3 else none
  fd2path fd := if fd = 3 then some "a" else none

theorem oneFile_distinct : oneFile.Distinct := by
  have hfd : ∀ fd inode, oneFile.inodeOf fd = some inode → fd = 3 := by
    intro fd inode hopen
    by_contra hne
    simp only [DiskManager.inodeOf, oneFile, if_neg hne, Option.map_none] at hopen
    exact absurd hopen (by simp)
  intro fd fd' inode hopen hopen'
  rw [hfd fd inode hopen, hfd fd' inode hopen']

/-- A page is written in the only frame, which then goes to another page. -/
theorem fetchPage_lastWritten_evicted :
    ∃ s, Runs.run step [.call (.fetchPage ⟨3, 0⟩), .write 0 (List.replicate pageSize 7),
        .call (.unpinPage ⟨3, 0⟩ true), .call (.fetchPage ⟨3, 1⟩), .call (.unpinPage ⟨3, 1⟩ false)]
        (start (n := 1) (fun _ => 0) oneFile fun _ => 2) = some s ∧ ∀ id, Known s.pool id →
      ∃ res pool, runFrom (BufferPoolManager.fetchPage DiskManager.io id) s.pool = (.ok res, pool) ∧
        ∀ f, res = some f → (pool.pages f).data = s.mem id := by
  apply fetchPage_lastWritten
  · exact oneFile_distinct
  · refine ⟨⟨⟨by decide, by decide⟩, rfl, by decide⟩, ?_⟩
    rintro _ ⟨⟩
    refine ⟨⟨by decide, List.length_replicate⟩, ?_⟩
    rintro _ ⟨⟩
    refine ⟨fun _ _ _ _ => rfl, ?_⟩
    rintro _ ⟨⟩
    refine ⟨⟨⟨by decide, by decide⟩, rfl, by decide⟩, ?_⟩
    rintro _ ⟨⟩
    exact ⟨fun _ _ _ hmark => absurd hmark (by decide), fun _ _ => trivial⟩

end PoolMemory
end Rmdb
