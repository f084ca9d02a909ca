import Rmdb.Storage.PoolRuns

/-! Requests for a page that fail, and what they leave of the pool. -/
namespace Rmdb.BufferPoolManager

open Program

variable {n : ℕ} {δ : Type} {io : DiskIo δ} {pool pool' claimed : BufferPoolManager n δ} {f : Fin n}

/-- The two calls that ask for a page. The file descriptor of the second is behind a pointer. -/
inductive PageRequest where
  | fetchPage (id : PageId)
  | newPage (fd : Option ℤ)
deriving DecidableEq, Repr

def ask (io : DiskIo δ) : PageRequest → PoolM n δ (Option (Fin n))
  | .fetchPage id => fetchPage io id
  | .newPage fd => newPage io fd

/-- A null pointer was returned, or an exception thrown. -/
def Failed (outcome : Except PoolError (Option (Fin n))) : Prop :=
  outcome = .ok none ∨ outcome = .error .internalError

/-- All is as before, except that a dirty page may have been written back. -/
structure Unchanged (io : DiskIo δ) (pool pool' : BufferPoolManager n δ) : Prop where
  pageTable : pool'.pageTable = pool.pageTable
  freeList : pool'.freeList = pool.freeList
  lruList : pool'.replacer.lruList = pool.replacer.lruList
  pinCount : ∀ f, (pool'.pages f).pinCount = (pool.pages f).pinCount
  data : ∀ f, (pool'.pages f).data = (pool.pages f).data
  disk : pool'.disk = pool.disk ∨ ∃ f, pool.writeBack io f = some pool'.disk

theorem Unchanged.refl (pool : BufferPoolManager n δ) : Unchanged io pool pool :=
  ⟨rfl, rfl, rfl, fun _ => rfl, fun _ => rfl, .inl rfl⟩

/-- The frames that a request can take. -/
def idle (pool : BufferPoolManager n δ) : ℕ := pool.freeList.length + pool.replacer.lruList.length

theorem Unchanged.idle (h : Unchanged io pool pool') : pool'.idle = pool.idle := by
  rw [BufferPoolManager.idle, h.freeList, h.lruList]
  rfl

theorem victimOf_idle (h : pool.victimOf = some (f, claimed)) : claimed.idle + 1 = pool.idle := by
  unfold victimOf at h
  split at h
  · rename_i g rest hfree
    obtain ⟨_, rfl⟩ := Prod.mk.inj (Option.some.inj h)
    simp only [idle, hfree, List.length_cons]
    omega
  · rename_i hfree
    obtain ⟨⟨g, replacer⟩, hvictim, heq⟩ := Option.map_eq_some_iff.mp h
    obtain ⟨_, rfl⟩ := Prod.mk.inj heq
    obtain ⟨last, hlast, heq⟩ := Option.map_eq_some_iff.mp hvictim
    obtain ⟨_, rfl⟩ := Prod.mk.inj heq
    have hpos : 0 < pool.replacer.lruList.length := List.length_pos_of_mem (List.mem_of_getLast? hlast)
    simp only [idle, List.length_dropLast]
    omega

theorem victimOf_eq_none_iff : pool.victimOf = none ↔ pool.freeList = [] ∧ pool.replacer.lruList = [] := by
  unfold victimOf
  cases hfree : pool.freeList with
  | cons f rest => simp
  | nil => simp [LruReplacer.victim]

/-- A frame that was taken is in no list any more. -/
theorem not_unchanged (hvictim : pool.victimOf = some (f, claimed)) (hidle : pool'.idle = claimed.idle) :
    ¬Unchanged io pool pool' := by
  intro h
  have hlost := victimOf_idle hvictim
  have hsame := h.idle
  omega

/-- A request that takes a frame and fails does not give it back. -/
theorem ask_victim {request : PageRequest} (hfailed : Failed (runFrom (ask io request) pool).1)
    (hvictim : pool.victimOf = some (f, claimed)) (hrequest : request ≠ .newPage none) :
    (runFrom (ask io request) pool).2.idle = claimed.idle := by
  cases request with
  | fetchPage id =>
    rw [ask] at hfailed ⊢
    cases hmapped : pool.pageTable id with
    | some g =>
      rw [runFrom_fetchPage_hit hmapped] at hfailed
      rcases hfailed with h | h <;> cases h
    | none =>
      rw [runFrom_fetchPage_victim io hmapped hvictim] at hfailed ⊢
      cases hwrite : claimed.writeBack io f with
      | none => rfl
      | some disk =>
        simp only [hwrite] at hfailed ⊢
        cases hread : io.readPage id disk with
        | none => rfl
        | some read =>
          rw [hread] at hfailed
          rcases hfailed with h | h <;> cases h
  | newPage fd =>
    cases fd with
    | none => exact absurd rfl hrequest
    | some fd =>
      rw [ask, runFrom_newPage_victim io hvictim fd] at hfailed ⊢
      by_cases hneg : fd < 0
      · rw [if_pos hneg]
      · rw [if_neg hneg] at hfailed ⊢
        by_cases hmax : maxFd ≤ fd
        · rw [if_pos hmax]
        · rw [if_neg hmax] at hfailed ⊢
          cases hwrite : claimed.writeBack io f with
          | none => rfl
          | some disk =>
            rw [hwrite] at hfailed
            rcases hfailed with h | h <;> cases h

/-- Without a frame to take, a request that fails did nothing. -/
theorem ask_full {request : PageRequest} (hfailed : Failed (runFrom (ask io request) pool).1)
    (hvictim : pool.victimOf = none) : (runFrom (ask io request) pool).2 = pool := by
  cases request with
  | fetchPage id =>
    rw [ask] at hfailed ⊢
    cases hmapped : pool.pageTable id with
    | some g =>
      rw [runFrom_fetchPage_hit hmapped] at hfailed
      rcases hfailed with h | h <;> cases h
    | none => rw [runFrom_fetchPage_full hmapped hvictim]
  | newPage fd =>
    cases fd with
    | none => rfl
    | some fd => rw [ask, runFrom_newPage_full hvictim fd]

/-- A request that fails changes nothing just when there was no frame to take, or no place for the number of
a new page. -/
theorem unchanged_iff (io : DiskIo δ) (pool : BufferPoolManager n δ) (request : PageRequest)
    (hfailed : Failed (runFrom (ask io request) pool).1) :
    Unchanged io pool (runFrom (ask io request) pool).2 ↔
      (pool.freeList = [] ∧ pool.replacer.lruList = []) ∨ request = .newPage none := by
  rw [← victimOf_eq_none_iff]
  by_cases hrequest : request = .newPage none
  · rw [hrequest]
    exact iff_of_true (Unchanged.refl pool) (.inr rfl)
  · rw [or_iff_left hrequest]
    cases hvictim : pool.victimOf with
    | some victim =>
      have hlost := ask_victim hfailed hvictim hrequest
      exact iff_of_false (not_unchanged hvictim hlost) nofun
    | none =>
      rw [ask_full hfailed hvictim]
      exact iff_of_true (Unchanged.refl pool) rfl

/-- A disk whose reads fail. -/
def unreadable : DiskIo Unit where
  readPage _ _ := none
  writePage _ _ disk := some disk

/-- A pool with one frame that was never used. -/
def onePage : BufferPoolManager 1 Unit := start (fun _ => -1) () fun _ => 0

/-- A disk of zeros. -/
def zeroDisk : DiskIo Unit where
  readPage _ _ := some (List.replicate pageSize 0, ())
  writePage _ _ disk := some disk

/-- The one frame holds a page that is still pinned. -/
def pinnedPage : BufferPoolManager 1 Unit := (runFrom (fetchPage zeroDisk ⟨3, 5⟩) onePage).2

theorem unchanged_no_frame : Failed (runFrom (ask zeroDisk (.fetchPage ⟨3, 6⟩)) pinnedPage).1 ∧
    Unchanged zeroDisk pinnedPage (runFrom (ask zeroDisk (.fetchPage ⟨3, 6⟩)) pinnedPage).2 := by
  have hfailed : Failed (runFrom (ask zeroDisk (.fetchPage ⟨3, 6⟩)) pinnedPage).1 := .inl rfl
  exact ⟨hfailed, (unchanged_iff zeroDisk pinnedPage (.fetchPage ⟨3, 6⟩) hfailed).mpr (.inl ⟨rfl, rfl⟩)⟩

/-- The read fails; the frame is in no list, and the next request for the page gets zeros without an error. -/
theorem failed_fetch_installs : ∃ pool' pool'',
    runFrom (fetchPage unreadable ⟨3, 5⟩) onePage = (.error .internalError, pool') ∧
      ¬Unchanged unreadable onePage pool' ∧ pool'.freeList = [] ∧ pool'.replacer.lruList = [] ∧
      runFrom (fetchPage unreadable ⟨3, 5⟩) pool' = (.ok (some 0), pool'') ∧
      (pool''.pages 0).data = List.replicate pageSize 0 := by
  refine ⟨_, _, rfl, ?_, rfl, rfl, rfl, rfl⟩
  intro h
  exact absurd h.freeList nofun

end Rmdb.BufferPoolManager
