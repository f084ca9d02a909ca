import Rmdb.Storage.PoolInvariant

/-! Calls in any order on one buffer pool, and which of them break its representation. -/
namespace Rmdb.BufferPoolManager

open Program

variable {n : ℕ} {δ : Type} {io : DiskIo δ} {pool pool' claimed : BufferPoolManager n δ}
  {f : Fin n} {id : PageId}

/-- What a call can do: it leaves a sound pool, or it was not a sound call and the pool is broken. -/
def Splits (io : DiskIo δ) (pool : BufferPoolManager n δ) (call : PoolCall) : Prop :=
  (Sound io pool call → ∀ pool', step io pool call = some pool' → Inv pool') ∧
    (¬Sound io pool call → ∃ pool', step io pool call = some pool' ∧ ¬RepOk pool')

theorem Splits.sound {call : PoolCall} (hsound : Sound io pool call)
    (hstep : ∀ pool', step io pool call = some pool' → Inv pool') : Splits io pool call :=
  ⟨fun _ => hstep, fun hnot => absurd hsound hnot⟩

theorem Splits.unsound {call : PoolCall} (hsound : ¬Sound io pool call)
    (hstep : step io pool call = some pool') (hbroken : ¬RepOk pool') : Splits io pool call :=
  ⟨fun hnot => absurd hnot hsound, fun _ => ⟨pool', hstep, hbroken⟩⟩

theorem runFrom_updatePage (f : Fin n) (newId : PageId) :
    runFrom (updatePage io f newId) pool =
      match pool.writeBack io f with
      | none => (.error .internalError, pool)
      | some disk => (.ok (), { pool with
          disk
          pageTable := Function.update
            (Function.update pool.pageTable (pool.pages f).id none) newId (some f) }.modifyPage f
          fun page => { page with
            id := newId
            data := List.replicate pageSize 0
            isDirty := page.isDirty && page.id.pageNo = invalidPageNo }) := by
  simp only [updatePage, runFrom_bind, runFrom_get]
  cases pool.writeBack io f <;> rfl

/-- The pool after `update_page`, and a disk that the old page was written to. -/
def install (pool : BufferPoolManager n δ) (f : Fin n) (newId : PageId) (disk : δ) : BufferPoolManager n δ :=
  { pool with
    disk
    pageTable := Function.update (Function.update pool.pageTable (pool.pages f).id none) newId (some f)
    pages := Function.update pool.pages f { pool.pages f with
      id := newId
      data := List.replicate pageSize 0
      isDirty := (pool.pages f).isDirty && (pool.pages f).id.pageNo = invalidPageNo } }

/-- The frame is pinned once. -/
def occupy (pool : BufferPoolManager n δ) (f : Fin n) (data : Bytes) (disk : δ) : BufferPoolManager n δ :=
  { pool with
    disk
    replacer := pool.replacer.pin f
    pages := Function.update pool.pages f { pool.pages f with data, pinCount := 1 } }

/-- A page that is in the pool. -/
theorem runFrom_fetchPage_hit (hmapped : pool.pageTable id = some f) : runFrom (fetchPage io id) pool =
    (.ok (some f), { pool with
      replacer := pool.replacer.pin f
      pages := Function.update pool.pages f { pool.pages f with pinCount := (pool.pages f).pinCount + 1 } }) := by
  simp only [fetchPage, runFrom_bind, runFrom_get, hmapped, runFrom_modify, runFrom_pure]
  rfl

theorem runFrom_fetchPage_full (hmapped : pool.pageTable id = none) (hvictim : pool.victimOf = none) :
    runFrom (fetchPage io id) pool = (.ok none, pool) := by
  simp only [fetchPage, runFrom_bind, runFrom_get, hmapped, runFrom_findVictimPage, hvictim, runFrom_pure]

/-- A page that takes the frame of another one. -/
theorem runFrom_fetchPage_victim (io : DiskIo δ) (hmapped : pool.pageTable id = none)
    (hvictim : pool.victimOf = some (f, claimed)) : runFrom (fetchPage io id) pool =
      match claimed.writeBack io f with
      | none => (.error .internalError, claimed)
      | some disk =>
        match io.readPage id disk with
        | none => (.error .internalError, claimed.install f id disk)
        | some (data, disk') => (.ok (some f), (claimed.install f id disk).occupy f data disk') := by
  simp only [fetchPage, runFrom_bind, runFrom_get, hmapped, runFrom_findVictimPage, hvictim, runFrom_updatePage]
  cases claimed.writeBack io f with
  | none => rfl
  | some disk =>
    simp only [modifyPage]
    cases io.readPage id disk with
    | none => rfl
    | some read => rfl

theorem runFrom_newPage_full (hvictim : pool.victimOf = none) (fd : ℤ) :
    runFrom (newPage io (some fd)) pool = (.ok none, pool) := by
  simp only [newPage, runFrom_bind, runFrom_findVictimPage, hvictim, runFrom_pure]

theorem runFrom_newPage_victim (io : DiskIo δ) (hvictim : pool.victimOf = some (f, claimed)) (fd : ℤ) :
    runFrom (newPage io (some fd)) pool =
      if fd < 0 then (.ok none, claimed)
      else if maxFd ≤ fd then (.error .crash, claimed)
      else
        let numbered :=
          { claimed with fd2pageno := Function.update claimed.fd2pageno fd (claimed.fd2pageno fd + 1) }
        match claimed.writeBack io f with
        | none => (.error .internalError, numbered)
        | some disk =>
          let installed := numbered.install f ⟨fd, claimed.fd2pageno fd⟩ disk
          (.ok (some f), installed.occupy f (List.replicate pageSize 0) disk) := by
  simp only [newPage, runFrom_bind, runFrom_findVictimPage, hvictim]
  split
  · rfl
  · split
    · rfl
    · have hwrite : ∀ fd2pageno, ({ claimed with fd2pageno }.writeBack io f) = claimed.writeBack io f := fun _ => rfl
      simp only [runFrom_bind, runFrom_get, runFrom_modify, runFrom_updatePage, hwrite]
      cases claimed.writeBack io f with
      | none => rfl
      | some disk =>
        simp only [runFrom_pure, modifyPage, install, occupy, Function.update_self]

theorem Inv.fetchPage (h : Inv pool) (id : PageId) : Splits io pool (.fetchPage id) := by
  cases hmapped : pool.pageTable id with
  | some f =>
    refine Splits.sound (fun _ _ hnone => absurd (hmapped.symm.trans hnone) nofun) fun pool' hstep => ?_
    simp only [step, exec, runFrom_discard, runFrom_fetchPage_hit hmapped, Except.map, Option.some.injEq] at hstep
    subst hstep
    have hpin := h.pinCount_nonneg f
    refine h.repin hmapped { pool.pages f with pinCount := (pool.pages f).pinCount + 1 }
      rfl ?_ rfl rfl rfl ?_ ?_
    · change 0 ≤ (pool.pages f).pinCount + 1
      omega
    · change f ∈ pool.replacer.pin f ↔ (pool.pages f).pinCount + 1 = 0
      rw [LruReplacer.mem_pin]
      constructor
      · exact fun hmem => absurd rfl hmem.1
      · omega
    · intro g hg
      change g ∈ pool.replacer.pin f ↔ _
      rw [LruReplacer.mem_pin]
      exact and_iff_right hg
  | none =>
    cases hvictim : pool.victimOf with
    | none =>
      refine Splits.sound (fun _ _ _ hsome => absurd (hvictim.symm.trans hsome) nofun) fun pool' hstep => ?_
      simp only [step, exec, runFrom_discard, runFrom_fetchPage_full hmapped hvictim, Except.map,
        Option.some.injEq] at hstep
      exact hstep ▸ h
    | some victim =>
      obtain ⟨f, claimed⟩ := victim
      have hclaims := h.claims hvictim
      have hrun := runFrom_fetchPage_victim io hmapped hvictim
      cases hwrite : claimed.writeBack io f with
      | none =>
        apply Splits.unsound
        · intro hsound
          obtain ⟨disk, hdisk, _⟩ := hsound f claimed hmapped hvictim
          exact absurd (hwrite.symm.trans hdisk) nofun
        · simp only [step, exec, runFrom_discard, hrun, hwrite, Except.map]
          rfl
        · exact hclaims.lost rfl rfl rfl
      | some disk =>
        cases hread : io.readPage id disk with
        | none =>
          apply Splits.unsound
          · intro hsound
            obtain ⟨disk', hdisk, hsome⟩ := hsound f claimed hmapped hvictim
            obtain rfl := Option.some.inj (hwrite.symm.trans hdisk)
            rw [hread] at hsome
            exact absurd hsome nofun
          · simp only [step, exec, runFrom_discard, hrun, hwrite, hread, Except.map]
            rfl
          · refine hclaims.lost rfl rfl ?_
            simp [install]
        | some read =>
          refine Splits.sound (fun f' claimed' _ hsome => ?_) fun pool' hstep => ?_
          · obtain ⟨rfl, rfl⟩ := Prod.mk.inj (Option.some.inj (hvictim.symm.trans hsome))
            exact ⟨disk, hwrite, by rw [hread]; rfl⟩
          · simp only [step, exec, runFrom_discard, hrun, hwrite, hread, Except.map, Option.some.injEq] at hstep
            subst hstep
            refine hclaims.install h ?_ ?_ rfl rfl (Function.update_idem ..) rfl
            · simp [install]
            · rfl

theorem Inv.newPage (h : Inv pool) (fd : Option ℤ) : Splits io pool (.newPage fd) := by
  cases fd with
  | none =>
    refine Splits.sound trivial fun pool' hstep => ?_
    simp only [step, exec, runFrom_discard, BufferPoolManager.newPage, runFrom_pure, Except.map,
      Option.some.injEq] at hstep
    exact hstep ▸ h
  | some fd =>
    cases hvictim : pool.victimOf with
    | none =>
      refine Splits.sound (fun _ _ hsome => absurd (hvictim.symm.trans hsome) (by simp)) fun pool' hstep => ?_
      simp only [step, exec, runFrom_discard, runFrom_newPage_full hvictim, Except.map, Option.some.injEq] at hstep
      exact hstep ▸ h
    | some victim =>
      obtain ⟨f, claimed⟩ := victim
      have hclaims := h.claims hvictim
      have hrun := runFrom_newPage_victim io hvictim fd
      by_cases hneg : fd < 0
      · apply Splits.unsound
        · intro hsound
          have hle := (hsound f claimed hvictim).1
          omega
        · simp only [step, exec, runFrom_discard, hrun, hneg, if_true, Except.map]
          rfl
        · exact hclaims.lost rfl rfl rfl
      · by_cases hmax : maxFd ≤ fd
        · refine Splits.sound (fun f' claimed' _ => ⟨by omega, by omega⟩) fun pool' hstep => ?_
          simp only [step, exec, runFrom_discard, hrun, hneg, hmax, if_true, if_false, Except.map] at hstep
          exact absurd hstep (by simp)
        · cases hwrite : claimed.writeBack io f with
          | none =>
            apply Splits.unsound
            · intro hsound
              have hsome := (hsound f claimed hvictim).2 (by omega)
              rw [hwrite] at hsome
              exact absurd hsome (by simp)
            · simp only [step, exec, runFrom_discard, hrun, hneg, hmax, if_false, hwrite, Except.map]
              rfl
            · exact hclaims.lost rfl rfl rfl
          | some disk =>
            refine Splits.sound (fun f' claimed' hsome => ?_) fun pool' hstep => ?_
            · obtain ⟨rfl, rfl⟩ := Prod.mk.inj (Option.some.inj (hvictim.symm.trans hsome))
              exact ⟨by omega, fun _ => by rw [hwrite]; rfl⟩
            · simp only [step, exec, runFrom_discard, hrun, hneg, hmax, if_false, hwrite, Except.map,
                Option.some.injEq] at hstep
              subst hstep
              refine hclaims.install h ?_ ?_ rfl rfl (Function.update_idem ..) rfl
              · simp [install]
              · rfl

theorem Inv.unpinPage (h : Inv pool) (id : PageId) (isDirty : Bool) :
    Splits io pool (.unpinPage id isDirty) := by
  refine Splits.sound trivial fun pool' hstep => ?_
  cases hmapped : pool.pageTable id with
  | none =>
    simp only [step, exec, runFrom_discard, BufferPoolManager.unpinPage, runFrom_bind, runFrom_get,
      hmapped, runFrom_pure, Except.map, Option.some.injEq] at hstep
    exact hstep ▸ h
  | some f =>
    by_cases hzero : (pool.pages f).pinCount = 0
    · simp only [step, exec, runFrom_discard, BufferPoolManager.unpinPage, runFrom_bind, runFrom_get,
        hmapped, hzero, if_true, runFrom_pure, Except.map, Option.some.injEq] at hstep
      exact hstep ▸ h
    · simp only [step, exec, runFrom_discard, BufferPoolManager.unpinPage, runFrom_bind, runFrom_get,
        hmapped, hzero, if_false, runFrom_modify, runFrom_pure, Except.map, Option.some.injEq] at hstep
      subst hstep
      have hpin := h.pinCount_nonneg f
      have hplace := h.onePlace f
      have hnot : f ∉ pool.replacer := fun hmem => hplace.evictable_unpinned hmem (by omega)
      refine h.repin hmapped { pool.pages f with
        pinCount := (pool.pages f).pinCount - 1
        isDirty := (pool.pages f).isDirty || isDirty } rfl ?_ rfl rfl rfl ?_ ?_
      · change 0 ≤ (pool.pages f).pinCount - 1
        omega
      · change f ∈ (if (pool.pages f).pinCount - 1 = 0 then pool.replacer.unpin f else pool.replacer) ↔
          (pool.pages f).pinCount - 1 = 0
        split
        · rename_i hlast
          rw [LruReplacer.mem_unpin]
          exact iff_of_true (.inl rfl) hlast
        · rename_i hlast
          exact iff_of_false hnot hlast
      · intro g hg
        change g ∈ (if (pool.pages f).pinCount - 1 = 0 then pool.replacer.unpin f else pool.replacer) ↔ _
        split
        · rw [LruReplacer.mem_unpin]
          exact or_iff_right hg
        · rfl

theorem Inv.deletePage (h : Inv pool) (id : PageId) : Splits io pool (.deletePage id) := by
  cases hmapped : pool.pageTable id with
  | none =>
    refine Splits.sound (fun _ hsome => absurd (hmapped.symm.trans hsome) nofun) fun pool' hstep => ?_
    simp only [step, exec, runFrom_discard, BufferPoolManager.deletePage, runFrom_bind, runFrom_get,
      hmapped, runFrom_pure, Except.map, Option.some.injEq] at hstep
    exact hstep ▸ h
  | some f =>
    by_cases hzero : (pool.pages f).pinCount = 0
    · cases hwrite : pool.writeBack io f with
      | none =>
        refine Splits.sound (fun f' hsome _ => ?_) fun pool' hstep => ?_
        · exact Option.some.inj (hmapped.symm.trans hsome) ▸ hwrite
        · simp only [step, exec, runFrom_discard, BufferPoolManager.deletePage, runFrom_bind,
            runFrom_get, hmapped, hzero, ne_eq, not_true_eq_false, if_false, runFrom_updatePage, hwrite,
            Except.map, Option.some.injEq] at hstep
          exact hstep ▸ h
      | some disk =>
        apply Splits.unsound
        · intro hsound
          exact absurd (hwrite.symm.trans (hsound f hmapped hzero)) nofun
        · simp only [step, exec, runFrom_discard, BufferPoolManager.deletePage, runFrom_bind,
            runFrom_get, hmapped, hzero, ne_eq, not_true_eq_false, if_false, runFrom_updatePage, hwrite,
            runFrom_modify, runFrom_pure, Except.map]
          rfl
        · -- The frame was evictable, stays so and is now free as well.
          intro hok
          have hevictable : f ∈ pool.replacer := by
            rcases (h.onePlace f).some with hfree | hmem | hpin
            · exact absurd hfree (h.notFree id f hmapped)
            · exact hmem
            · omega
          exact (hok.onePlace f).not_both ⟨List.mem_append_right _ List.mem_cons_self, hevictable⟩
    · refine Splits.sound (fun f' hsome hpin => ?_) fun pool' hstep => ?_
      · exact absurd (Option.some.inj (hmapped.symm.trans hsome) ▸ hpin) hzero
      · simp only [step, exec, runFrom_discard, BufferPoolManager.deletePage, runFrom_bind, runFrom_get,
          hmapped, hzero, ne_eq, not_false_eq_true, if_true, runFrom_pure, Except.map,
          Option.some.injEq] at hstep
        exact hstep ▸ h

/-- A call that moves no frame, and takes the server down in no case. -/
theorem Inv.same_step {call : PoolCall} (h : Inv pool) (hsound : Sound io pool call)
    (hsame : Moves Same (exec (n := n) io call)) : Splits io pool call := by
  refine Splits.sound hsound fun pool' hstep => ?_
  have hmoved := hsame pool
  unfold step at hstep
  split at hstep
  · exact absurd hstep nofun
  · rename_i heq
    rw [heq] at hmoved
    exact h.same (Option.some.inj hstep ▸ hmoved)

theorem Inv.splits (h : Inv pool) (call : PoolCall) : Splits io pool call := by
  cases call with
  | fetchPage id => exact h.fetchPage id
  | unpinPage id isDirty => exact h.unpinPage id isDirty
  | flushPage id =>
    refine h.same_step trivial fun pool => ?_
    rw [exec, runFrom_discard]
    exact flushPage_same pool
  | newPage fd => exact h.newPage fd
  | deletePage id => exact h.deletePage id
  | flushAllPages fd => exact h.same_step trivial (flushAllPages_same fd)

/-- The pool after some calls; `none` when one of them took the server down. -/
def run (io : DiskIo δ) (pool : BufferPoolManager n δ) (calls : List PoolCall) :
    Option (BufferPoolManager n δ) :=
  calls.foldlM (step io) pool

theorem run_cons (call : PoolCall) (calls : List PoolCall) :
    run io pool (call :: calls) = (step io pool call).bind fun pool => run io pool calls := rfl

/-- Every pool that the first calls lead to satisfies `P`. -/
def Throughout (P : BufferPoolManager n δ → Prop) (io : DiskIo δ) (pool : BufferPoolManager n δ)
    (calls : List PoolCall) : Prop :=
  ∀ made, made <+: calls → ∀ pool', run io pool made = some pool' → P pool'

def AllSound (io : DiskIo δ) (pool : BufferPoolManager n δ) (calls : List PoolCall) : Prop :=
  ∀ made call, made ++ [call] <+: calls → ∀ pool', run io pool made = some pool' → Sound io pool' call

theorem throughout_nil {P : BufferPoolManager n δ → Prop} : Throughout P io pool [] ↔ P pool := by
  constructor
  · exact fun h => h [] (List.prefix_refl _) pool rfl
  · intro h made hmade pool' hrun
    obtain rfl := List.prefix_nil.mp hmade
    exact Option.some.inj hrun ▸ h

theorem throughout_cons {P : BufferPoolManager n δ → Prop} {call : PoolCall} {calls : List PoolCall} :
    Throughout P io pool (call :: calls) ↔
      P pool ∧ ∀ pool', step io pool call = some pool' → Throughout P io pool' calls := by
  constructor
  · intro h
    refine ⟨h [] List.nil_prefix pool rfl, fun pool' hstep made hmade pool'' hrun => ?_⟩
    refine h (call :: made) ((List.prefix_cons_inj call).mpr hmade) pool'' ?_
    rw [run_cons, hstep]
    exact hrun
  · intro ⟨hpool, hrest⟩ made hmade pool'' hrun
    cases made with
    | nil => exact Option.some.inj hrun ▸ hpool
    | cons c made =>
      obtain ⟨hc, htail⟩ := List.cons_prefix_cons.mp hmade
      subst hc
      rw [run_cons] at hrun
      obtain ⟨pool', hstep, hrun⟩ := Option.bind_eq_some_iff.mp hrun
      exact hrest pool' hstep made htail pool'' hrun

theorem allSound_cons {call : PoolCall} {calls : List PoolCall} :
    AllSound io pool (call :: calls) ↔
      Sound io pool call ∧ ∀ pool', step io pool call = some pool' → AllSound io pool' calls := by
  constructor
  · intro h
    refine ⟨h [] call ⟨calls, rfl⟩ pool rfl, fun pool' hstep made c hmade pool'' hrun => ?_⟩
    refine h (call :: made) c ((List.prefix_cons_inj call).mpr hmade) pool'' ?_
    rw [run_cons, hstep]
    exact hrun
  · intro ⟨hcall, hrest⟩ made c hmade pool'' hrun
    cases made with
    | nil =>
      obtain ⟨rfl, _⟩ := List.cons_prefix_cons.mp hmade
      exact Option.some.inj hrun ▸ hcall
    | cons c' made =>
      obtain ⟨hc, htail⟩ := List.cons_prefix_cons.mp hmade
      subst hc
      rw [run_cons] at hrun
      obtain ⟨pool', hstep, hrun⟩ := Option.bind_eq_some_iff.mp hrun
      exact hrest pool' hstep made c htail pool'' hrun

theorem Inv.throughout_iff (h : Inv pool) (calls : List PoolCall) :
    Throughout RepOk io pool calls ↔ AllSound io pool calls := by
  induction calls generalizing pool with
  | nil =>
    rw [throughout_nil]
    refine iff_of_true h.toRepOk fun made call hmade => ?_
    exact absurd (List.prefix_nil.mp hmade) (List.append_ne_nil_of_right_ne_nil _ nofun)
  | cons call calls ih =>
    rw [throughout_cons, allSound_cons]
    constructor
    · intro ⟨_, hrest⟩
      by_cases hsound : Sound io pool call
      · exact ⟨hsound, fun pool' hstep =>
          (ih ((h.splits call).1 hsound pool' hstep)).mp (hrest pool' hstep)⟩
      · obtain ⟨pool', hstep, hbroken⟩ := (h.splits call).2 hsound
        exact absurd (hrest pool' hstep [] List.nil_prefix pool' rfl) hbroken
    · intro ⟨hsound, hrest⟩
      exact ⟨h.toRepOk, fun pool' hstep =>
        (ih ((h.splits call).1 hsound pool' hstep)).mpr (hrest pool' hstep)⟩

/-- From a new pool, the representation holds after every call just when all calls are sound. -/
theorem repOk_throughout_iff (io : DiskIo δ) (fds : Fin n → ℤ) (disk : δ) (fd2pageno : ℤ → ℤ)
    (calls : List PoolCall) :
    Throughout RepOk io (start fds disk fd2pageno) calls ↔
      AllSound io (start fds disk fd2pageno) calls :=
  (start_inv fds disk fd2pageno).throughout_iff calls

/-- A disk that answers every call. -/
def blankDisk : DiskIo Unit where
  readPage _ disk := some (List.replicate pageSize 0, disk)
  writePage _ _ disk := some disk

/-- A page is deleted, and its frame is both free and evictable. -/
theorem deletePage_breaks : ¬Throughout RepOk blankDisk (start (n := 1) (fun _ => -1) () fun _ => 0)
    [.newPage (some 0), .unpinPage ⟨0, 0⟩ false, .deletePage ⟨0, 0⟩] := by
  intro h
  have hok := h _ (List.prefix_refl _) _ rfl
  have hfree : (0 : Fin 1) ∈ [(0 : Fin 1)] := List.mem_cons_self
  exact (hok.onePlace 0).not_both ⟨hfree, hfree⟩

end Rmdb.BufferPoolManager
