import Rmdb.Common.Defs
import Rmdb.Lib.Program
import Mathlib.Data.List.Basic

/-! The buffer pool: frames, the page table, the list of free frames and the LRU replacer. Reading
and writing the files is left to the operating system. -/
namespace Rmdb

structure PageId where
  fd : ℤ
  pageNo : ℤ
deriving DecidableEq, Repr

def invalidPageNo : ℤ := -1

def maxFd : ℤ := 8192

structure Page where
  id : PageId
  data : Bytes
  isDirty : Bool
  pinCount : ℤ
deriving DecidableEq, Repr

/-- The frames that can be evicted, the most recently used one first. `LRUhash_` holds the places
of just these frames in the list. -/
structure LruReplacer (n : ℕ) where
  lruList : List (Fin n)
  nodup : lruList.Nodup

namespace LruReplacer

variable {n : ℕ}

def victim (lru : LruReplacer n) : Option (Fin n × LruReplacer n) :=
  lru.lruList.getLast?.map fun f =>
    (f, ⟨lru.lruList.dropLast, lru.nodup.sublist (List.dropLast_sublist _)⟩)

def pin (lru : LruReplacer n) (f : Fin n) : LruReplacer n := ⟨lru.lruList.erase f, lru.nodup.erase f⟩

def unpin (lru : LruReplacer n) (f : Fin n) : LruReplacer n :=
  if h : f ∈ lru.lruList then lru else ⟨f :: lru.lruList, List.nodup_cons.mpr ⟨h, lru.nodup⟩⟩

instance : Membership (Fin n) (LruReplacer n) := ⟨fun lru f => f ∈ lru.lruList⟩

instance (f : Fin n) (lru : LruReplacer n) : Decidable (f ∈ lru) :=
  inferInstanceAs (Decidable (f ∈ lru.lruList))

theorem mem_pin {lru : LruReplacer n} {f g : Fin n} : g ∈ lru.pin f ↔ g ≠ f ∧ g ∈ lru :=
  lru.nodup.mem_erase_iff

theorem mem_unpin {lru : LruReplacer n} {f g : Fin n} : g ∈ lru.unpin f ↔ g = f ∨ g ∈ lru := by
  unfold unpin
  split
  · rename_i h
    constructor
    · exact .inr
    · rintro (rfl | hg)
      · exact h
      · exact hg
  · exact List.mem_cons

theorem mem_dropLast {α : Type} {l : List α} {a last : α} (hnodup : l.Nodup) (hlast : l.getLast? = some last) :
    a ∈ l.dropLast ↔ a ≠ last ∧ a ∈ l := by
  have hsplit := List.dropLast_append_getLast? last hlast
  rw [← hsplit, List.nodup_append] at hnodup
  have hnot : last ∉ l.dropLast := fun hmem => hnodup.2.2 last hmem last (List.mem_singleton.mpr rfl) rfl
  constructor
  · exact fun ha => ⟨fun heq => hnot (heq ▸ ha), List.dropLast_subset l ha⟩
  · intro ⟨hne, ha⟩
    rw [← hsplit] at ha
    rcases List.mem_append.mp ha with ha | ha
    · exact ha
    · exact absurd (List.mem_singleton.mp ha) hne

/-- The victim is taken from the list, and nothing else is. -/
theorem victim_spec {lru lru' : LruReplacer n} {f : Fin n} (h : lru.victim = some (f, lru')) :
    f ∈ lru ∧ ∀ g, g ∈ lru' ↔ g ≠ f ∧ g ∈ lru := by
  obtain ⟨last, hlast, heq⟩ := Option.map_eq_some_iff.mp h
  obtain ⟨rfl, rfl⟩ := Prod.mk.inj heq
  exact ⟨List.mem_of_getLast? hlast, fun g => mem_dropLast lru.nodup hlast⟩

end LruReplacer

/-- The calls of `read_page` and `write_page` to the operating system; `none` where they fail. -/
structure DiskIo (δ : Type) where
  readPage : PageId → δ → Option (Bytes × δ)
  writePage : PageId → Bytes → δ → Option δ

structure BufferPoolManager (n : ℕ) (δ : Type) where
  pages : Fin n → Page
  pageTable : PageId → Option (Fin n)
  freeList : List (Fin n)
  replacer : LruReplacer n
  disk : δ
  fd2pageno : ℤ → ℤ

inductive PoolError where
  | internalError
  /-- A failed assertion takes the server down. -/
  | crash
deriving DecidableEq, Repr

namespace BufferPoolManager

variable {n : ℕ} {δ : Type}

/-- A pool as it is constructed. The file descriptors of the empty frames are not initialised. -/
def start (fds : Fin n → ℤ) (disk : δ) (fd2pageno : ℤ → ℤ) : BufferPoolManager n δ where
  pages f := ⟨⟨fds f, invalidPageNo⟩, List.replicate pageSize 0, false, 0⟩
  pageTable _ := none
  freeList := List.finRange n
  replacer := ⟨[], List.nodup_nil⟩
  disk := disk
  fd2pageno := fd2pageno

def modifyPage (pool : BufferPoolManager n δ) (f : Fin n) (g : Page → Page) : BufferPoolManager n δ :=
  { pool with pages := Function.update pool.pages f (g (pool.pages f)) }

abbrev PoolM (n : ℕ) (δ : Type) := ExceptT PoolError (StateM (BufferPoolManager n δ))

def findVictimPage : PoolM n δ (Option (Fin n)) := do
  let pool ← get
  match pool.freeList with
  | f :: freeList =>
    modify fun pool => { pool with freeList }
    return some f
  | [] =>
    match pool.replacer.victim with
    | some (f, replacer) =>
      modify fun pool => { pool with replacer }
      return some f
    | none => return none

/-- The disk after a dirty page of a frame was written back. -/
def writeBack (io : DiskIo δ) (pool : BufferPoolManager n δ) (f : Fin n) : Option δ :=
  let page := pool.pages f
  if page.id.pageNo ≠ invalidPageNo ∧ page.isDirty = true then
    io.writePage page.id page.data pool.disk
  else some pool.disk

def updatePage (io : DiskIo δ) (f : Fin n) (newId : PageId) : PoolM n δ Unit := do
  let pool ← get
  let page := pool.pages f
  match pool.writeBack io f with
  | none => throw .internalError
  | some disk =>
    modify fun pool =>
      { pool with
        disk
        pageTable :=
          Function.update (Function.update pool.pageTable page.id none) newId (some f) }.modifyPage f
        fun page => { page with
          id := newId
          data := List.replicate pageSize 0
          isDirty := page.isDirty && page.id.pageNo = invalidPageNo }

def fetchPage (io : DiskIo δ) (id : PageId) : PoolM n δ (Option (Fin n)) := do
  match (← get).pageTable id with
  | some f =>
    modify fun pool => { pool with replacer := pool.replacer.pin f }.modifyPage f
      fun page => { page with pinCount := page.pinCount + 1 }
    return some f
  | none =>
    match ← findVictimPage with
    | none => return none
    | some f =>
      updatePage io f id
      match io.readPage id (← get).disk with
      | none => throw .internalError
      | some (data, disk) =>
        modify fun pool => { pool with disk, replacer := pool.replacer.pin f }.modifyPage f
          fun page => { page with data, pinCount := 1 }
        return some f

def unpinPage (id : PageId) (isDirty : Bool) : PoolM n δ Bool := do
  let pool ← get
  match pool.pageTable id with
  | none => return false
  | some f =>
    let pinCount := (pool.pages f).pinCount
    if pinCount = 0 then return false
    else
      modify fun pool => { pool with
        replacer := if pinCount - 1 = 0 then pool.replacer.unpin f else pool.replacer }.modifyPage f
          fun page => { page with pinCount := pinCount - 1, isDirty := page.isDirty || isDirty }
      return true

/-- Written whether dirty or not. -/
def flushPage (io : DiskIo δ) (id : PageId) : PoolM n δ Bool := do
  let pool ← get
  match pool.pageTable id with
  | none => return false
  | some f =>
    if id.pageNo = invalidPageNo then return false
    else match io.writePage id (pool.pages f).data pool.disk with
      | none => throw .internalError
      | some disk =>
        modify fun pool => { pool with disk }.modifyPage f fun page => { page with isDirty := false }
        return true

/-- The argument is the file descriptor behind the pointer, which may be null. The check of the
descriptor comes after a victim was taken. -/
def newPage (io : DiskIo δ) (fd : Option ℤ) : PoolM n δ (Option (Fin n)) := do
  match fd with
  | none => return none
  | some fd =>
    match ← findVictimPage with
    | none => return none
    | some f =>
      if fd < 0 then return none
      else if maxFd ≤ fd then throw .crash
      else
        let pageNo := (← get).fd2pageno fd
        modify fun pool => { pool with fd2pageno := Function.update pool.fd2pageno fd (pageNo + 1) }
        updatePage io f ⟨fd, pageNo⟩
        modify fun pool => { pool with replacer := pool.replacer.pin f }.modifyPage f
          fun page => { page with pinCount := 1 }
        return some f

/-- The frame goes to the free list under the identifier that it had. -/
def deletePage (io : DiskIo δ) (id : PageId) : PoolM n δ Bool := do
  let pool ← get
  match pool.pageTable id with
  | none => return true
  | some f =>
    if (pool.pages f).pinCount ≠ 0 then return false
    else
      updatePage io f id
      modify fun pool => { pool with freeList := pool.freeList ++ [f] }
      return true

def flushFrame (io : DiskIo δ) (fd : ℤ) (f : Fin n) : PoolM n δ Unit := do
  let pool ← get
  let page := pool.pages f
  if page.id.fd = fd ∧ page.id.pageNo ≠ invalidPageNo then
    match io.writePage page.id page.data pool.disk with
    | none => throw .internalError
    | some disk =>
      modify fun pool => { pool with disk }.modifyPage f fun page => { page with isDirty := false }

def flushAllPages (io : DiskIo δ) (fd : ℤ) : PoolM n δ Unit := (List.finRange n).forM (flushFrame io fd)

end BufferPoolManager

inductive PoolCall where
  | fetchPage (id : PageId)
  | unpinPage (id : PageId) (isDirty : Bool)
  | flushPage (id : PageId)
  | newPage (fd : Option ℤ)
  | deletePage (id : PageId)
  | flushAllPages (fd : ℤ)
deriving DecidableEq, Repr

namespace BufferPoolManager

open Program

variable {n : ℕ} {δ : Type}

def exec (io : DiskIo δ) : PoolCall → PoolM n δ Unit
  | .fetchPage id => discard (fetchPage io id)
  | .unpinPage id isDirty => discard (unpinPage id isDirty)
  | .flushPage id => discard (flushPage io id)
  | .newPage fd => discard (newPage io fd)
  | .deletePage id => discard (deletePage io id)
  | .flushAllPages fd => flushAllPages io fd

/-- The pool after a call, also one that throws, unless the server went down. -/
def step (io : DiskIo δ) (pool : BufferPoolManager n δ) (call : PoolCall) :
    Option (BufferPoolManager n δ) :=
  match runFrom (exec io call) pool with
  | (.error .crash, _) => none
  | (_, pool) => some pool

end BufferPoolManager
end Rmdb
