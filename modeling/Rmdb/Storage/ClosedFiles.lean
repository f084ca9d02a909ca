import Rmdb.Storage.DiskManager
import Rmdb.Storage.PoolRuns
import Rmdb.Lib.Runs

/-! Files that are closed while the pool holds pages of them, and what their descriptors stand for
later. -/
namespace Rmdb

open Program

inductive FileCall where
  | createFile (path : String)
  | destroyFile (path : String)
  /-- The descriptor is what the operating system answers. -/
  | openFile (path : String) (fd : ℤ)
  | closeFile (fd : ℤ)
  | pool (call : PoolCall)

/-- The pool, and for each frame the file that its page was taken from. -/
structure PoolFiles (n : ℕ) where
  pool : BufferPoolManager n DiskManager
  owner : Fin n → Option ℕ

namespace PoolFiles

open BufferPoolManager

variable {n : ℕ}

/-- The frame that a call gives to a page, and the descriptor of the page's file. -/
def taken (pool : BufferPoolManager n DiskManager) : PoolCall → Option (Fin n × ℤ)
  | .fetchPage id =>
    match pool.pageTable id with
    | some _ => none
    | none => pool.victimOf.map fun (f, _) => (f, id.fd)
  | .newPage (some fd) => if fd < 0 then none else pool.victimOf.map fun (f, _) => (f, fd)
  | .deletePage id =>
    match pool.pageTable id with
    | some f => if (pool.pages f).pinCount = 0 then some (f, id.fd) else none
    | none => none
  | _ => none

/-- The page of the frame goes to disk in the call. -/
def Writes (pool : BufferPoolManager n DiskManager) (f : Fin n) : PoolCall → Prop
  | .flushPage id => pool.pageTable id = some f ∧ id.pageNo ≠ invalidPageNo
  | .flushAllPages fd => (pool.pages f).id.fd = fd ∧ (pool.pages f).id.pageNo ≠ invalidPageNo
  | call => (∃ fd, taken pool call = some (f, fd)) ∧
      (pool.pages f).id.pageNo ≠ invalidPageNo ∧ (pool.pages f).isDirty = true

/-- A frame keeps its page where the old page cannot be written back. -/
def owners (s : PoolFiles n) (call : PoolCall) : Fin n → Option ℕ :=
  match taken s.pool call with
  | none => s.owner
  | some (f, fd) =>
    if (s.pool.writeBack DiskManager.io f).isSome then Function.update s.owner f (s.pool.disk.inodeOf fd)
    else s.owner

def start (fds : Fin n → ℤ) (disk : DiskManager) (fd2pageno : ℤ → ℤ) : PoolFiles n :=
  ⟨.start fds disk fd2pageno, fun _ => none⟩

/-- The disk manager after one of its own calls, also one that throws. -/
def diskCall {α : Type} (s : PoolFiles n) (call : DiskManager.DiskM α) : PoolFiles n :=
  { s with pool := { s.pool with disk := (runFrom call s.pool.disk).2 } }

def step : FileCall → PoolFiles n → Option (PoolFiles n)
  | .createFile path, s => some (s.diskCall (DiskManager.createFile path))
  | .destroyFile path, s => some (s.diskCall (DiskManager.destroyFile path))
  | .openFile path fd, s => some (s.diskCall (DiskManager.openFile path fd))
  | .closeFile fd, s => some (s.diskCall (DiskManager.closeFile fd))
  | .pool call, s => (BufferPoolManager.step DiskManager.io s.pool call).map fun pool =>
      { pool, owner := s.owners call }

/-- What is fetched from an open file, and what is written to one, was taken from this very file. -/
structure OwnPages (s : PoolFiles n) (call : FileCall) (s' : PoolFiles n) : Prop where
  fetched : ∀ id f, call = .pool (.fetchPage id) →
    (runFrom (fetchPage DiskManager.io id) s.pool).1 = .ok (some f) →
    ∀ inode, s.pool.disk.inodeOf id.fd = some inode → s'.owner f = some inode
  written : ∀ poolCall f, call = .pool poolCall → Writes s.pool f poolCall →
    ∀ inode, s.pool.disk.inodeOf (s.pool.pages f).id.fd = some inode → s.owner f = some inode

/-- The frame can be found under its page, or its page can be written to disk. -/
def Holds (pool : BufferPoolManager n DiskManager) (f : Fin n) : Prop :=
  pool.pageTable (pool.pages f).id = some f ∨ (pool.pages f).id.pageNo ≠ invalidPageNo

/-- A file is not opened under a descriptor of which the pool still holds pages of another file. -/
def OpensClean : FileCall → PoolFiles n → Prop
  | .openFile path fd, s => ∀ inode, s.pool.disk.dir path = some inode → s.pool.disk.path2fd path = none →
      ∀ f, Holds s.pool f → (s.pool.pages f).id.fd = fd → s.owner f = some inode
  | _, _ => True

/-- The pages of the pool are of the files that are open under their descriptors. -/
structure Inv (s : PoolFiles n) : Prop where
  carries : ∀ id f, s.pool.pageTable id = some f → (s.pool.pages f).id = id
  owned : ∀ f, Holds s.pool f → ∀ inode,
    s.pool.disk.inodeOf (s.pool.pages f).id.fd = some inode → s.owner f = some inode

variable {pool pool' claimed : BufferPoolManager n DiskManager} {f : Fin n} {call : PoolCall}

/-! ### What a call of the pool does to the frames -/

def Carries (pool : BufferPoolManager n DiskManager) : Prop :=
  ∀ id f, pool.pageTable id = some f → (pool.pages f).id = id

/-- A frame keeps its page, or it was taken for another one. -/
structure Moved (pool : BufferPoolManager n DiskManager) (call : PoolCall) (pool' : BufferPoolManager n DiskManager) :
    Prop where
  carries : Carries pool'
  inodeOf : ∀ fd, pool'.disk.inodeOf fd = pool.disk.inodeOf fd
  frames : ∀ f, Holds pool' f →
    (∃ fd, taken pool call = some (f, fd) ∧ (pool.writeBack DiskManager.io f).isSome ∧ (pool'.pages f).id.fd = fd) ∨
    ((∀ fd, taken pool call = some (f, fd) → pool.writeBack DiskManager.io f = none) ∧ Holds pool f ∧
      (pool'.pages f).id = (pool.pages f).id)

theorem Moved.same (h : Carries pool) (htaken : ∀ f fd, taken pool call = some (f, fd) → pool.writeBack DiskManager.io f = none)
    (hid : ∀ f, (pool'.pages f).id = (pool.pages f).id) (htable : pool'.pageTable = pool.pageTable)
    (hinode : ∀ fd, pool'.disk.inodeOf fd = pool.disk.inodeOf fd) : Moved pool call pool' := by
  refine ⟨fun id f hf => ?_, hinode, fun f hf => .inr ⟨htaken f, ?_, hid f⟩⟩
  · rw [hid]
    exact h id f (htable ▸ hf)
  · unfold Holds at hf ⊢
    rwa [htable, hid] at hf

theorem Moved.update (h : Carries pool) {newId : PageId} (htaken : taken pool call = some (f, newId.fd))
    (hwrite : (pool.writeBack DiskManager.io f).isSome) (hself : (pool'.pages f).id = newId)
    (hother : ∀ g, g ≠ f → pool'.pages g = pool.pages g)
    (htable : pool'.pageTable =
      Function.update (Function.update pool.pageTable (pool.pages f).id none) newId (some f))
    (hinode : ∀ fd, pool'.disk.inodeOf fd = pool.disk.inodeOf fd) : Moved pool call pool' := by
  have hmapped : ∀ id g, pool'.pageTable id = some g →
      (id = newId ∧ g = f) ∨ (g ≠ f ∧ pool.pageTable id = some g) := by
    intro id g hg
    rw [htable, Function.update_apply] at hg
    split at hg
    · exact .inl ⟨‹_›, (Option.some.inj hg).symm⟩
    · rw [Function.update_apply] at hg
      split at hg
      · exact absurd hg nofun
      · rename_i hold
        exact .inr ⟨fun heq => hold (h id f (heq ▸ hg)).symm, hg⟩
  refine ⟨fun id g hg => ?_, hinode, fun g hg => ?_⟩
  · rcases hmapped id g hg with ⟨rfl, rfl⟩ | ⟨hne, hg⟩
    · exact hself
    · rw [hother g hne]
      exact h id g hg
  · by_cases heq : g = f
    · subst heq
      exact .inl ⟨newId.fd, htaken, hwrite, by rw [hself]⟩
    · refine .inr ⟨fun fd hfd => ?_, ?_, by rw [hother g heq]⟩
      · rw [htaken] at hfd
        exact absurd (Prod.mk.inj (Option.some.inj hfd)).1.symm heq
      · unfold Holds at hg ⊢
        rw [hother g heq] at hg
        rcases hg with hg | hg
        · rcases hmapped _ g hg with ⟨_, hgf⟩ | ⟨_, hg⟩
          · exact absurd hgf heq
          · exact .inl hg
        · exact .inr hg

theorem writeBack_claimed (hvictim : pool.victimOf = some (f, claimed)) (g : Fin n) :
    claimed.writeBack DiskManager.io g = pool.writeBack DiskManager.io g := by
  obtain ⟨hpages, _, hdisk, _⟩ := victimOf_fields hvictim
  rw [writeBack, writeBack, hpages, hdisk]

theorem inodeOf_writeBack {disk : DiskManager} (h : pool.writeBack DiskManager.io f = some disk) (fd : ℤ) :
    disk.inodeOf fd = pool.disk.inodeOf fd := by
  simp only [writeBack] at h
  split at h
  · exact DiskManager.inodeOf_writePage h fd
  · rw [Option.some.inj h]

theorem moved_fetchPage (h : Carries pool) (id : PageId) {res : Except PoolError (Option (Fin n))}
    (hrun : runFrom (fetchPage DiskManager.io id) pool = (res, pool')) :
    Moved pool (.fetchPage id) pool' ∧ ∀ f, res = .ok (some f) → pool'.pageTable id = some f := by
  cases hmapped : pool.pageTable id with
  | some f =>
    have htaken : ∀ g fd, taken pool (.fetchPage id) = some (g, fd) → pool.writeBack DiskManager.io g = none := by
      intro g fd hg
      rw [taken, hmapped] at hg
      exact absurd hg (by simp)
    simp only [fetchPage, runFrom_bind, runFrom_get, hmapped, runFrom_modify, runFrom_pure] at hrun
    obtain ⟨rfl, rfl⟩ := Prod.mk.inj hrun
    refine ⟨Moved.same h htaken (fun g => ?_) rfl fun _ => rfl, fun g hg => ?_⟩
    · by_cases hg : g = f
      · rw [hg]
        simp [modifyPage]
      · simp [modifyPage, hg]
    · obtain rfl := Option.some.inj (Except.ok.inj hg)
      exact hmapped
  | none =>
    cases hvictim : pool.victimOf with
    | none =>
      simp only [fetchPage, runFrom_bind, runFrom_get, hmapped, runFrom_findVictimPage, hvictim,
        runFrom_pure] at hrun
      obtain ⟨rfl, rfl⟩ := Prod.mk.inj hrun
      refine ⟨Moved.same h (fun g fd hg => ?_) (fun _ => rfl) rfl fun _ => rfl, by simp⟩
      rw [taken, hmapped, hvictim] at hg
      exact absurd hg (by simp)
    | some victim =>
      obtain ⟨f, claimed⟩ := victim
      obtain ⟨hpages, htable, hdisk, _⟩ := victimOf_fields hvictim
      have htaken : taken pool (.fetchPage id) = some (f, id.fd) := by
        rw [taken, hmapped, hvictim]
        rfl
      cases hwrite : pool.writeBack DiskManager.io f with
      | none =>
        rw [← writeBack_claimed hvictim] at hwrite
        simp only [fetchPage, runFrom_bind, runFrom_get, hmapped, runFrom_findVictimPage, hvictim,
          runFrom_updatePage, hwrite] at hrun
        obtain ⟨rfl, rfl⟩ := Prod.mk.inj hrun
        refine ⟨Moved.same h (fun g fd hg => ?_) (fun g => by rw [hpages]) htable (fun fd => by rw [hdisk]), by simp⟩
        rw [htaken] at hg
        obtain ⟨rfl, _⟩ := Prod.mk.inj (Option.some.inj hg)
        rwa [writeBack_claimed hvictim] at hwrite
      | some disk =>
        have hinode := inodeOf_writeBack hwrite
        have hsome : (pool.writeBack DiskManager.io f).isSome := by rw [hwrite]; rfl
        rw [← writeBack_claimed hvictim] at hwrite
        cases hread : DiskManager.io.readPage id disk with
        | none =>
          simp only [fetchPage, runFrom_bind, runFrom_get, hmapped, runFrom_findVictimPage, hvictim,
            runFrom_updatePage, hwrite, modifyPage, hread, runFrom_throw] at hrun
          obtain ⟨rfl, rfl⟩ := Prod.mk.inj hrun
          refine ⟨Moved.update h htaken hsome ?_ (fun g hg => ?_) ?_ hinode, by simp⟩
          · simp only [Function.update_self]
          · simp only [Function.update_of_ne hg, hpages]
          · simp only [hpages, htable]
        | some read =>
          obtain ⟨data, disk'⟩ := read
          have hinode' := DiskManager.inodeOf_readPage hread
          simp only [fetchPage, runFrom_bind, runFrom_get, hmapped, runFrom_findVictimPage, hvictim,
            runFrom_updatePage, hwrite, modifyPage, hread, runFrom_modify, runFrom_pure] at hrun
          obtain ⟨rfl, rfl⟩ := Prod.mk.inj hrun
          refine ⟨Moved.update h htaken hsome ?_ (fun g hg => ?_) ?_ fun fd => (hinode' fd).trans (hinode fd), ?_⟩
          · simp only [Function.update_self]
          · simp only [Function.update_of_ne hg, hpages]
          · simp only [hpages, htable]
          · intro g hg
            obtain rfl := Option.some.inj (Except.ok.inj hg)
            exact Function.update_self ..

theorem moved_newPage (h : Carries pool) (fd : Option ℤ) {res : Except PoolError (Option (Fin n))}
    (hrun : runFrom (newPage DiskManager.io fd) pool = (res, pool')) (hup : res ≠ .error .crash) :
    Moved pool (.newPage fd) pool' := by
  cases fd with
  | none =>
    obtain ⟨_, rfl⟩ := Prod.mk.inj hrun
    exact Moved.same h (fun _ _ htaken => by cases htaken) (fun _ => rfl) rfl fun _ => rfl
  | some fd =>
    cases hvictim : pool.victimOf with
    | none =>
      simp only [newPage, runFrom_bind, runFrom_findVictimPage, hvictim, runFrom_pure] at hrun
      obtain ⟨_, rfl⟩ := Prod.mk.inj hrun
      refine Moved.same h (fun g fd' hg => ?_) (fun _ => rfl) rfl fun _ => rfl
      rw [taken, hvictim, Option.map_none, ite_self] at hg
      exact absurd hg (by simp)
    | some victim =>
      obtain ⟨f, claimed⟩ := victim
      obtain ⟨hpages, htable, hdisk, _⟩ := victimOf_fields hvictim
      by_cases hneg : fd < 0
      · simp only [newPage, runFrom_bind, runFrom_findVictimPage, hvictim, hneg, if_true, runFrom_pure] at hrun
        obtain ⟨_, rfl⟩ := Prod.mk.inj hrun
        refine Moved.same h (fun g fd' hg => ?_) (fun g => by rw [hpages]) htable fun fd => by rw [hdisk]
        rw [taken, if_pos hneg] at hg
        exact absurd hg (by simp)
      · have htaken : taken pool (.newPage (some fd)) = some (f, fd) := by
          rw [taken, if_neg hneg, hvictim]
          rfl
        by_cases hmax : maxFd ≤ fd
        · simp only [newPage, runFrom_bind, runFrom_findVictimPage, hvictim, hneg, hmax, if_true, if_false,
            runFrom_throw] at hrun
          exact absurd (Prod.mk.inj hrun).1.symm hup
        · cases hwrite : pool.writeBack DiskManager.io f with
          | none =>
            have hwrite' : ∀ fd2pageno, { claimed with fd2pageno }.writeBack DiskManager.io f = none :=
              fun _ => (writeBack_claimed hvictim f).trans hwrite
            simp only [newPage, runFrom_bind, runFrom_findVictimPage, hvictim, hneg, hmax, if_false, runFrom_get,
              runFrom_modify, runFrom_updatePage, hwrite'] at hrun
            obtain ⟨_, rfl⟩ := Prod.mk.inj hrun
            refine Moved.same h (fun g fd hg => ?_) (fun g => by simp only [hpages]) htable fun fd => by simp only [hdisk]
            rw [htaken] at hg
            obtain ⟨rfl, _⟩ := Prod.mk.inj (Option.some.inj hg)
            exact hwrite
          | some disk =>
            have hinode := inodeOf_writeBack hwrite
            have hsome : (pool.writeBack DiskManager.io f).isSome := by rw [hwrite]; rfl
            have hwrite' : ∀ fd2pageno, { claimed with fd2pageno }.writeBack DiskManager.io f = some disk :=
              fun _ => (writeBack_claimed hvictim f).trans hwrite
            simp only [newPage, runFrom_bind, runFrom_findVictimPage, hvictim, hneg, hmax, if_false, runFrom_get,
              runFrom_modify, runFrom_updatePage, hwrite', modifyPage, runFrom_pure] at hrun
            obtain ⟨_, rfl⟩ := Prod.mk.inj hrun
            refine Moved.update h (show taken pool (.newPage (some fd)) = some (f, (⟨fd, claimed.fd2pageno fd⟩ : PageId).fd)
              from htaken) hsome ?_ (fun g hg => ?_) ?_ hinode
            · simp only [Function.update_self]
            · simp only [Function.update_of_ne hg, hpages]
            · simp only [hpages, htable]

theorem moved_deletePage (h : Carries pool) (id : PageId) {res : Except PoolError Bool}
    (hrun : runFrom (deletePage DiskManager.io id) pool = (res, pool')) : Moved pool (.deletePage id) pool' := by
  cases hmapped : pool.pageTable id with
  | none =>
    simp only [deletePage, runFrom_bind, runFrom_get, hmapped, runFrom_pure] at hrun
    obtain ⟨_, rfl⟩ := Prod.mk.inj hrun
    refine Moved.same h (fun g fd' hg => ?_) (fun _ => rfl) rfl fun _ => rfl
    rw [taken, hmapped] at hg
    exact absurd hg (by simp)
  | some f =>
    by_cases hpin : (pool.pages f).pinCount = 0
    · have htaken : taken pool (.deletePage id) = some (f, id.fd) := by
        simp only [taken, hmapped, hpin, if_true]
      cases hwrite : pool.writeBack DiskManager.io f with
      | none =>
        simp only [deletePage, runFrom_bind, runFrom_get, hmapped, hpin, ne_eq, not_true_eq_false, if_false,
          runFrom_updatePage, hwrite] at hrun
        obtain ⟨_, rfl⟩ := Prod.mk.inj hrun
        refine Moved.same h (fun g fd hg => ?_) (fun _ => rfl) rfl fun _ => rfl
        rw [htaken] at hg
        obtain ⟨rfl, _⟩ := Prod.mk.inj (Option.some.inj hg)
        exact hwrite
      | some disk =>
        have hinode := inodeOf_writeBack hwrite
        have hsome : (pool.writeBack DiskManager.io f).isSome := by rw [hwrite]; rfl
        simp only [deletePage, runFrom_bind, runFrom_get, hmapped, hpin, ne_eq, not_true_eq_false, if_false,
          runFrom_updatePage, hwrite, modifyPage, runFrom_modify, runFrom_pure] at hrun
        obtain ⟨_, rfl⟩ := Prod.mk.inj hrun
        refine Moved.update h htaken hsome ?_ (fun g hg => ?_) rfl hinode
        · simp only [Function.update_self]
        · simp only [Function.update_of_ne hg]
    · simp only [deletePage, runFrom_bind, runFrom_get, hmapped, hpin, ne_eq, not_false_eq_true, if_true,
        runFrom_pure] at hrun
      obtain ⟨_, rfl⟩ := Prod.mk.inj hrun
      refine Moved.same h (fun g fd' hg => ?_) (fun _ => rfl) rfl fun _ => rfl
      simp only [taken, hmapped, hpin, if_false] at hg
      exact absurd hg (by simp)

/-- Calls that take no frame. -/
theorem Moved.untaken (h : Carries pool) (htaken : taken pool call = none) (hsame : Same pool pool')
    (hinode : ∀ fd, pool'.disk.inodeOf fd = pool.disk.inodeOf fd) : Moved pool call pool' := by
  refine Moved.same h (fun g fd hg => ?_) hsame.id hsame.pageTable hinode
  rw [htaken] at hg
  exact absurd hg nofun

theorem flushFrame_inodeOf (fd : ℤ) (f : Fin n) :
    Moves (fun pool pool' => ∀ fd, pool'.disk.inodeOf fd = pool.disk.inodeOf fd)
      (flushFrame DiskManager.io fd f) := by
  intro pool
  simp only [flushFrame, runFrom_bind, runFrom_get]
  split
  · split
    · exact fun _ => rfl
    · exact DiskManager.inodeOf_writePage ‹_›
  · exact fun _ => rfl

theorem flushPage_inodeOf (id : PageId) :
    Moves (fun pool pool' => ∀ fd, pool'.disk.inodeOf fd = pool.disk.inodeOf fd)
      (flushPage (n := n) DiskManager.io id) := by
  intro pool
  simp only [flushPage, runFrom_bind, runFrom_get]
  split
  · exact fun _ => rfl
  · split
    · exact fun _ => rfl
    · split
      · exact fun _ => rfl
      · exact DiskManager.inodeOf_writePage ‹_›

theorem moved_unpinPage (h : Carries pool) (id : PageId) (isDirty : Bool) {res : Except PoolError Bool}
    (hrun : runFrom (unpinPage id isDirty) pool = (res, pool')) : Moved pool (.unpinPage id isDirty) pool' := by
  simp only [unpinPage, runFrom_bind, runFrom_get] at hrun
  split at hrun
  · obtain ⟨_, rfl⟩ := Prod.mk.inj hrun
    exact Moved.same h (fun _ _ htaken => by cases htaken) (fun _ => rfl) rfl fun _ => rfl
  · rename_i f hmapped
    split at hrun
    · obtain ⟨_, rfl⟩ := Prod.mk.inj hrun
      exact Moved.same h (fun _ _ htaken => by cases htaken) (fun _ => rfl) rfl fun _ => rfl
    · simp only [runFrom_bind, runFrom_modify, runFrom_pure] at hrun
      obtain ⟨_, rfl⟩ := Prod.mk.inj hrun
      refine Moved.same h (fun _ _ htaken => by cases htaken) (fun g => ?_) rfl fun _ => rfl
      by_cases hg : g = f
      · simp [modifyPage, hg]
      · simp [modifyPage, hg]

/-- A call that returns leaves every frame its page, or gives it another one. -/
theorem moved_step (h : Carries pool) (hstep : BufferPoolManager.step DiskManager.io pool call = some pool') :
    Moved pool call pool' := by
  rcases hrun : runFrom (exec DiskManager.io call) pool with ⟨res, after⟩
  have hafter : res ≠ .error .crash ∧ after = pool' := by
    rw [BufferPoolManager.step, hrun] at hstep
    cases res with
    | ok res => exact ⟨by simp, Option.some.inj hstep⟩
    | error e =>
      cases e with
      | internalError => exact ⟨by simp, Option.some.inj hstep⟩
      | crash => exact absurd hstep (by simp)
  obtain ⟨hup, rfl⟩ := hafter
  cases call with
  | fetchPage id =>
    rcases hcall : runFrom (fetchPage DiskManager.io id) pool with ⟨r, after⟩
    rw [exec, runFrom_discard, hcall] at hrun
    obtain ⟨rfl, rfl⟩ := Prod.mk.inj hrun
    exact (moved_fetchPage h id hcall).1
  | newPage fd =>
    rcases hcall : runFrom (newPage DiskManager.io fd) pool with ⟨r, after⟩
    rw [exec, runFrom_discard, hcall] at hrun
    obtain ⟨rfl, rfl⟩ := Prod.mk.inj hrun
    apply moved_newPage h fd hcall
    intro hcrash
    rw [hcrash] at hup
    exact hup rfl
  | deletePage id =>
    rcases hcall : runFrom (deletePage DiskManager.io id) pool with ⟨r, after⟩
    rw [exec, runFrom_discard, hcall] at hrun
    obtain ⟨rfl, rfl⟩ := Prod.mk.inj hrun
    exact moved_deletePage h id hcall
  | unpinPage id isDirty =>
    rcases hcall : runFrom (unpinPage id isDirty) pool with ⟨r, after⟩
    rw [exec, runFrom_discard, hcall] at hrun
    obtain ⟨rfl, rfl⟩ := Prod.mk.inj hrun
    exact moved_unpinPage h id isDirty hcall
  | flushPage id =>
    have hsame : Same pool (runFrom (flushPage DiskManager.io id) pool).2 := flushPage_same pool
    have hinode := flushPage_inodeOf id pool
    rw [exec, runFrom_discard] at hrun
    obtain ⟨_, rfl⟩ := Prod.mk.inj hrun
    exact Moved.untaken h rfl hsame hinode
  | flushAllPages fd =>
    have hsame : Same pool (runFrom (flushAllPages DiskManager.io fd) pool).2 := flushAllPages_same fd pool
    have hinode := Moves.forM (l := List.finRange n) (fun _ _ => rfl)
      (fun _ _ _ h h' fd => (h' fd).trans (h fd)) (fun f _ => flushFrame_inodeOf fd f) pool
    rw [exec, flushAllPages] at hrun
    rw [flushAllPages, hrun] at hsame
    rw [hrun] at hinode
    exact Moved.untaken h rfl hsame hinode

/-! ### Whole runs -/

theorem Inv.poolCall {s : PoolFiles n} (h : Inv s) (hstep : BufferPoolManager.step DiskManager.io s.pool call = some pool') :
    Inv { pool := pool', owner := s.owners call } := by
  have hmoved := moved_step h.carries hstep
  refine ⟨hmoved.carries, fun f hf inode hopen => ?_⟩
  rw [hmoved.inodeOf] at hopen
  rcases hmoved.frames f hf with ⟨fd, htaken, hwrite, hid⟩ | ⟨hkept, hf, hid⟩
  · have howner : s.owners call f = s.pool.disk.inodeOf fd := by
      simp only [owners, htaken, hwrite, if_true, Function.update_self]
    change s.owners call f = some inode
    rw [howner, ← hid, hopen]
  · have howner : s.owners call f = s.owner f := by
      cases htaken : taken s.pool call with
      | none => simp only [owners, htaken]
      | some victim =>
        obtain ⟨g, fd⟩ := victim
        simp only [owners, htaken]
        by_cases hg : f = g
        · rw [hg] at hkept
          simp only [hkept fd htaken, Option.isSome_none, Bool.false_eq_true, if_false]
        · split
          · exact Function.update_of_ne hg ..
          · rfl
    change s.owners call f = some inode
    rw [howner]
    exact h.owned f hf inode (hid ▸ hopen)

/-- A call of the disk manager leaves the pool alone. -/
theorem Inv.diskCall {s : PoolFiles n} (h : Inv s) {α : Type} (call : DiskManager.DiskM α)
    (hinode : ∀ f, Holds s.pool f → ∀ inode,
      (runFrom call s.pool.disk).2.inodeOf (s.pool.pages f).id.fd = some inode → s.owner f = some inode) :
    Inv (s.diskCall call) := ⟨h.carries, hinode⟩

theorem createFile_inodeOf (path : String) :
    Moves (fun disk disk' => ∀ fd, disk'.inodeOf fd = disk.inodeOf fd) (DiskManager.createFile path) := by
  intro disk
  simp only [DiskManager.createFile, runFrom_bind, runFrom_get]
  split
  · exact fun _ => rfl
  · exact fun _ => rfl

theorem destroyFile_inodeOf (path : String) :
    Moves (fun disk disk' => ∀ fd, disk'.inodeOf fd = disk.inodeOf fd) (DiskManager.destroyFile path) := by
  intro disk
  simp only [DiskManager.destroyFile, runFrom_bind, runFrom_get]
  split
  · exact fun _ => rfl
  · intro fd
    simp only [runFrom_bind, runFrom_get]
    cases disk.path2fd path with
    | none => rfl
    | some _ => rfl

theorem closeFile_inodeOf (fd : ℤ) :
    Moves (fun disk disk' => ∀ fd inode, disk'.inodeOf fd = some inode → disk.inodeOf fd = some inode)
      (DiskManager.closeFile fd) := by
  intro disk
  simp only [DiskManager.closeFile, runFrom_bind, runFrom_get]
  split
  · exact fun _ _ hopen => hopen
  · intro fd' inode hopen
    by_cases hfd : fd' = fd
    · simp only [runFrom_modify, DiskManager.inodeOf, hfd, Function.update_self] at hopen
      exact absurd hopen (by simp)
    · simpa only [runFrom_modify, DiskManager.inodeOf, Function.update_of_ne hfd] using hopen

/-- A file is opened under the descriptor, or nothing changes. -/
theorem openFile_inodeOf (path : String) (fd : ℤ) :
    Moves (fun disk disk' => ∀ fd' inode, disk'.inodeOf fd' = some inode → disk.inodeOf fd' = some inode ∨
      fd' = fd ∧ disk.dir path = some inode ∧ disk.path2fd path = none) (DiskManager.openFile path fd) := by
  intro disk
  simp only [DiskManager.openFile, runFrom_bind, runFrom_get]
  split
  · exact fun _ _ hopen => .inl hopen
  · rename_i inode hdir
    simp only [runFrom_bind, runFrom_get]
    split
    · exact fun _ _ hopen => .inl hopen
    · rename_i hpath
      simp only [runFrom_bind, runFrom_modify, runFrom_pure]
      intro fd' inode' hopen
      by_cases hfd : fd' = fd
      · simp only [DiskManager.inodeOf, hfd, Function.update_self, Option.map_some] at hopen
        exact .inr ⟨hfd, hopen ▸ hdir, hpath⟩
      · simp only [DiskManager.inodeOf, Function.update_of_ne hfd] at hopen
        exact .inl hopen

theorem Inv.holds_of_writes {s : PoolFiles n} (h : Inv s) (hwrites : Writes s.pool f call) : Holds s.pool f := by
  cases call with
  | flushPage id => exact .inr (h.carries id f hwrites.1 ▸ hwrites.2)
  | flushAllPages fd => exact .inr hwrites.2
  | fetchPage id => exact .inr hwrites.2.1
  | newPage fd => exact .inr hwrites.2.1
  | unpinPage id isDirty => exact .inr hwrites.2.1
  | deletePage id => exact .inr hwrites.2.1

theorem Inv.step {s s' : PoolFiles n} {call : FileCall} (h : Inv s) (hclean : OpensClean call s)
    (hstep : PoolFiles.step call s = some s') : OwnPages s call s' ∧ Inv s' := by
  cases call with
  | createFile path =>
    obtain rfl := Option.some.inj hstep
    refine ⟨⟨nofun, nofun⟩, h.diskCall _ fun f hf inode hopen => h.owned f hf inode ?_⟩
    rwa [createFile_inodeOf path] at hopen
  | destroyFile path =>
    obtain rfl := Option.some.inj hstep
    refine ⟨⟨nofun, nofun⟩, h.diskCall _ fun f hf inode hopen => h.owned f hf inode ?_⟩
    rwa [destroyFile_inodeOf path] at hopen
  | closeFile fd =>
    obtain rfl := Option.some.inj hstep
    refine ⟨⟨nofun, nofun⟩, h.diskCall _ fun f hf inode hopen => h.owned f hf inode ?_⟩
    exact closeFile_inodeOf fd s.pool.disk _ inode hopen
  | openFile path fd =>
    obtain rfl := Option.some.inj hstep
    refine ⟨⟨nofun, nofun⟩, h.diskCall _ fun f hf inode hopen => ?_⟩
    rcases openFile_inodeOf path fd s.pool.disk _ inode hopen with hopen | ⟨hfd, hdir, hpath⟩
    · exact h.owned f hf inode hopen
    · exact hclean inode hdir hpath f hf hfd
  | pool call =>
    obtain ⟨pool', hcall, rfl⟩ := Option.map_eq_some_iff.mp hstep
    have hinv := h.poolCall hcall
    have hmoved := moved_step h.carries hcall
    refine ⟨⟨?_, ?_⟩, hinv⟩
    · rintro id f ⟨⟩ hres inode hopen
      rcases hrun : runFrom (fetchPage DiskManager.io id) s.pool with ⟨res, after⟩
      obtain rfl : res = .ok (some f) := by
        rw [hrun] at hres
        exact hres
      have hafter : after = pool' := by
        simpa only [BufferPoolManager.step, exec, runFrom_discard, hrun, Except.map, Option.some.injEq] using hcall
      subst hafter
      have hmapped := (moved_fetchPage h.carries id hrun).2 f rfl
      have hid := hinv.carries id f hmapped
      have hholds : Holds after f := .inl (by rw [hid]; exact hmapped)
      refine hinv.owned f hholds inode ?_
      change after.disk.inodeOf (after.pages f).id.fd = some inode
      rw [hid, hmoved.inodeOf, hopen]
    · rintro _ f ⟨⟩ hwrites inode hopen
      exact h.owned f (h.holds_of_writes hwrites) inode hopen

theorem start_inv (fds : Fin n → ℤ) (disk : DiskManager) (fd2pageno : ℤ → ℤ) :
    Inv (start fds disk fd2pageno) := by
  refine ⟨nofun, fun f hf => ?_⟩
  rcases hf with hf | hf
  · exact absurd hf nofun
  · exact absurd rfl hf

/-- In every run in which files are opened under descriptors that the pool holds no pages of, each page
that is fetched from or written to an open file was taken from this file. -/
theorem ownPages_of_opensClean (fds : Fin n → ℤ) (disk : DiskManager) (fd2pageno : ℤ → ℤ) (calls : List FileCall)
    (hclean : Runs.AllMeet step OpensClean calls (start fds disk fd2pageno)) :
    Runs.Along step OwnPages calls (start fds disk fd2pageno) :=
  Runs.along_of_allMeet (fun _ _ _ hinv hmeets hstep => hinv.step hmeets hstep)
    (start_inv fds disk fd2pageno) hclean

/-- A disk without files. -/
def noFiles : DiskManager where
  dir _ := none
  nextInode := 0
  contents _ := []
  openFiles _ := none
  path2fd _ := none
  fd2path _ := none

/-- A file is closed and another one opened, under a descriptor of its own. -/
def reopen (fd : ℤ) : List FileCall :=
  [.createFile "a", .openFile "a" 3, .pool (.fetchPage ⟨3, 0⟩), .pool (.unpinPage ⟨3, 0⟩ false), .closeFile 3,
    .createFile "b", .openFile "b" fd, .pool (.fetchPage ⟨fd, 0⟩)]

theorem ownPages_of_opensClean_reopen :
    Runs.Along step OwnPages (reopen 4) (start (n := 1) (fun _ => 0) noFiles fun _ => 1) := by
  apply ownPages_of_opensClean
  refine ⟨trivial, ?_⟩
  rintro _ ⟨⟩
  refine ⟨fun _ _ _ f hf hfd => ?_, ?_⟩
  · obtain rfl := Subsingleton.elim 0 f
    exact absurd hfd (by decide)
  rintro _ ⟨⟩
  refine ⟨trivial, ?_⟩
  rintro _ ⟨⟩
  refine ⟨trivial, ?_⟩
  rintro _ ⟨⟩
  refine ⟨trivial, ?_⟩
  rintro _ ⟨⟩
  refine ⟨trivial, ?_⟩
  rintro _ ⟨⟩
  refine ⟨fun _ _ _ f hf hfd => ?_, ?_⟩
  · obtain rfl := Subsingleton.elim 0 f
    exact absurd hfd (by decide)
  rintro _ ⟨⟩
  exact ⟨trivial, fun _ _ => trivial⟩

/-- The descriptor of the closed file is given to the other one, and its page is found in the pool. -/
theorem not_ownPages_reopen :
    ¬Runs.Along step OwnPages (reopen 3) (start (n := 1) (fun _ => 0) noFiles fun _ => 1) := by
  intro h
  have h₁ := (h _ rfl).2
  have h₂ := (h₁ _ rfl).2
  have h₃ := (h₂ _ rfl).2
  have h₄ := (h₃ _ rfl).2
  have h₅ := (h₄ _ rfl).2
  have h₆ := (h₅ _ rfl).2
  have h₇ := (h₆ _ rfl).2
  have hlast := (h₇ _ rfl).1.fetched ⟨3, 0⟩ 0 rfl rfl 1 rfl
  exact absurd hlast (by decide)

end PoolFiles
end Rmdb
