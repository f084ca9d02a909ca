import Rmdb.Storage.BufferPool

/-! What the buffer pool keeps from call to call: every frame has one place, and the page table
agrees with the identifiers on the pages. -/
namespace Rmdb.BufferPoolManager

open Program

variable {n : ℕ} {δ : Type} {io : DiskIo δ} {pool pool' claimed : BufferPoolManager n δ}
  {f : Fin n} {id : PageId}

/-- Exactly one of the three holds. -/
structure OnePlace (free evictable pinned : Prop) : Prop where
  some : free ∨ evictable ∨ pinned
  not_both : ¬(free ∧ evictable)
  free_unpinned : free → ¬pinned
  evictable_unpinned : evictable → ¬pinned

structure RepOk (pool : BufferPoolManager n δ) : Prop where
  onePlace : ∀ f, OnePlace (f ∈ pool.freeList) (f ∈ pool.replacer) (0 < (pool.pages f).pinCount)
  injective : ∀ id id' f, pool.pageTable id = some f → pool.pageTable id' = some f → id = id'
  notFree : ∀ id f, pool.pageTable id = some f → f ∉ pool.freeList
  carries : ∀ id f, pool.pageTable id = some f → (pool.pages f).id = id

/-- What also holds of the frames and is needed to keep `RepOk`. -/
structure Inv (pool : BufferPoolManager n δ) : Prop extends RepOk pool where
  nodup : pool.freeList.Nodup
  pinCount_nonneg : ∀ f, 0 ≤ (pool.pages f).pinCount

/-- `find_victim_page` took the frame `f` out of the pool. -/
structure Claims (pool : BufferPoolManager n δ) (f : Fin n) (claimed : BufferPoolManager n δ) :
    Prop where
  unpinned : (pool.pages f).pinCount = 0
  free : ∀ g, g ∈ claimed.freeList ↔ g ≠ f ∧ g ∈ pool.freeList
  replacer : ∀ g, g ∈ claimed.replacer ↔ g ≠ f ∧ g ∈ pool.replacer
  nodup : claimed.freeList.Nodup
  pages : claimed.pages = pool.pages
  pageTable : claimed.pageTable = pool.pageTable

def victimOf (pool : BufferPoolManager n δ) : Option (Fin n × BufferPoolManager n δ) :=
  match pool.freeList with
  | f :: freeList => some (f, { pool with freeList })
  | [] => pool.replacer.victim.map fun (f, replacer) => (f, { pool with replacer })

/-- Taking a victim touches the free list and the replacer only. -/
theorem victimOf_fields (h : pool.victimOf = some (f, claimed)) : claimed.pages = pool.pages ∧
    claimed.pageTable = pool.pageTable ∧ claimed.disk = pool.disk ∧ claimed.fd2pageno = pool.fd2pageno := by
  unfold victimOf at h
  split at h
  · obtain ⟨_, rfl⟩ := Prod.mk.inj (Option.some.inj h)
    exact ⟨rfl, rfl, rfl, rfl⟩
  · obtain ⟨⟨g, replacer⟩, _, heq⟩ := Option.map_eq_some_iff.mp h
    obtain ⟨_, rfl⟩ := Prod.mk.inj heq
    exact ⟨rfl, rfl, rfl, rfl⟩

theorem runFrom_findVictimPage :
    runFrom findVictimPage pool =
      match pool.victimOf with
      | some (f, claimed) => (.ok (some f), claimed)
      | none => (.ok none, pool) := by
  simp only [findVictimPage, victimOf, runFrom_bind, runFrom_get]
  cases hfree : pool.freeList with
  | cons f freeList => simp only [runFrom_bind, runFrom_modify, runFrom_pure]
  | nil =>
    cases hvictim : pool.replacer.victim with
    | none => simp only [Option.map_none, runFrom_pure]
    | some victim =>
      simp only [Option.map_some, runFrom_bind, runFrom_modify, runFrom_pure]
      rw [hfree]

theorem Inv.unpinned (h : Inv pool) (hidle : f ∈ pool.freeList ∨ f ∈ pool.replacer) :
    (pool.pages f).pinCount = 0 := by
  have hpinned : ¬0 < (pool.pages f).pinCount := by
    cases hidle with
    | inl hfree => exact (h.onePlace f).free_unpinned hfree
    | inr hevictable => exact (h.onePlace f).evictable_unpinned hevictable
  have hnonneg := h.pinCount_nonneg f
  omega

/-- A frame that can be taken is in one list, once, and not pinned. -/
theorem victimOf_claims (hnotBoth : ∀ f, ¬(f ∈ pool.freeList ∧ f ∈ pool.replacer))
    (hidle : ∀ f, f ∈ pool.freeList ∨ f ∈ pool.replacer → (pool.pages f).pinCount = 0) (hnodup : pool.freeList.Nodup)
    (hvictim : pool.victimOf = some (f, claimed)) : pool.Claims f claimed := by
  unfold victimOf at hvictim
  cases hfree : pool.freeList with
  | cons g freeList =>
    rw [hfree] at hvictim
    obtain ⟨rfl, rfl⟩ := Prod.mk.inj (Option.some.inj hvictim)
    rw [hfree, List.nodup_cons] at hnodup
    have hmem : g ∈ pool.freeList := hfree ▸ List.mem_cons_self
    constructor
    · exact hidle g (.inl hmem)
    · intro g'
      rw [hfree, List.mem_cons]
      constructor
      · intro hg
        exact ⟨fun heq => hnodup.1 (heq ▸ hg), .inr hg⟩
      · rintro ⟨hne, hg | hg⟩
        · exact absurd hg hne
        · exact hg
    · intro g'
      constructor
      · intro hg
        exact ⟨fun heq => hnotBoth g ⟨hmem, heq ▸ hg⟩, hg⟩
      · exact And.right
    · exact hnodup.2
    · rfl
    · rfl
  | nil =>
    rw [hfree] at hvictim
    obtain ⟨⟨g, replacer⟩, hv, heq⟩ := Option.map_eq_some_iff.mp hvictim
    obtain ⟨rfl, rfl⟩ := Prod.mk.inj heq
    obtain ⟨hmem, hrest⟩ := LruReplacer.victim_spec hv
    constructor
    · exact hidle g (.inr hmem)
    · intro g'
      simp [hfree]
    · exact hrest
    · simp
    · rfl
    · rfl

theorem Inv.claims (h : Inv pool) (hvictim : pool.victimOf = some (f, claimed)) :
    pool.Claims f claimed :=
  victimOf_claims (fun f => (h.onePlace f).not_both) (fun _ => h.unpinned) h.nodup hvictim

/-- A frame that is neither free nor evictable nor pinned is lost. -/
theorem RepOk.not_lost (h : RepOk pool) (hfree : f ∉ pool.freeList) (hreplacer : f ∉ pool.replacer) :
    (pool.pages f).pinCount ≠ 0 := by
  intro hzero
  rcases (h.onePlace f).some with hmem | hmem | hmem
  · exact hfree hmem
  · exact hreplacer hmem
  · omega

theorem Claims.lost (h : pool.Claims f claimed) (hfree : pool'.freeList = claimed.freeList)
    (hreplacer : pool'.replacer = claimed.replacer)
    (hpin : (pool'.pages f).pinCount = (claimed.pages f).pinCount) : ¬RepOk pool' := by
  intro hok
  refine hok.not_lost ?_ ?_ ?_ (f := f)
  · rw [hfree, h.free]
    exact fun hmem => hmem.1 rfl
  · rw [hreplacer, h.replacer]
    exact fun hmem => hmem.1 rfl
  · rw [hpin, h.pages, h.unpinned]

/-- A claimed frame gets a page and is pinned. -/
theorem Claims.install (h : pool.Claims f claimed) (hinv : Inv pool) {page : Page}
    (hid : page.id = id) (hpin : page.pinCount = 1) (hfree : pool'.freeList = claimed.freeList)
    (hreplacer : pool'.replacer = claimed.replacer.pin f)
    (hpages : pool'.pages = Function.update claimed.pages f page)
    (htable : pool'.pageTable =
      Function.update (Function.update claimed.pageTable (claimed.pages f).id none) id (some f)) :
    Inv pool' := by
  rw [h.pages] at hpages htable
  rw [h.pageTable] at htable
  have hmapped : ∀ id' g, pool'.pageTable id' = some g →
      (id' = id ∧ g = f) ∨ (g ≠ f ∧ pool.pageTable id' = some g) := by
    intro id' g hg
    rw [htable, Function.update_apply] at hg
    split at hg
    · exact .inl ⟨‹_›, (Option.some.inj hg).symm⟩
    · rw [Function.update_apply] at hg
      split at hg
      · exact absurd hg nofun
      · rename_i hold
        refine .inr ⟨fun heq => hold ?_, hg⟩
        exact (heq ▸ hinv.carries id' g hg).symm
  have hother : ∀ g, g ≠ f → pool'.pages g = pool.pages g := by
    intro g hg
    rw [hpages, Function.update_of_ne hg]
  have hself : pool'.pages f = page := by rw [hpages, Function.update_self]
  have hmemFree : ∀ g, g ∈ pool'.freeList ↔ g ≠ f ∧ g ∈ pool.freeList := by
    intro g
    rw [hfree, h.free]
  have hmemReplacer : ∀ g, g ∈ pool'.replacer ↔ g ≠ f ∧ g ∈ pool.replacer := by
    intro g
    rw [hreplacer, LruReplacer.mem_pin, h.replacer]
    tauto
  refine ⟨⟨?_, ?_, ?_, ?_⟩, hfree ▸ h.nodup, ?_⟩
  · intro g
    by_cases hg : g = f
    · subst hg
      simp only [hmemFree, hmemReplacer, hself, hpin]
      constructor <;> simp
    · have hplace := hinv.onePlace g
      simpa only [hmemFree, hmemReplacer, hother g hg, ne_eq, hg, not_false_eq_true, true_and]
        using hplace
  · intro id₁ id₂ g h₁ h₂
    rcases hmapped id₁ g h₁ with ⟨rfl, hg⟩ | ⟨hg, h₁⟩
    · rcases hmapped id₂ g h₂ with ⟨rfl, _⟩ | ⟨hg', _⟩
      · rfl
      · exact absurd hg hg'
    · rcases hmapped id₂ g h₂ with ⟨_, hg'⟩ | ⟨_, h₂⟩
      · exact absurd hg' hg
      · exact hinv.injective id₁ id₂ g h₁ h₂
  · intro id' g hg
    rw [hmemFree]
    rcases hmapped id' g hg with ⟨_, rfl⟩ | ⟨_, hg'⟩
    · exact fun hmem => hmem.1 rfl
    · exact fun hmem => hinv.notFree id' g hg' hmem.2
  · intro id' g hg
    rcases hmapped id' g hg with ⟨rfl, rfl⟩ | ⟨hne, hg'⟩
    · rw [hself, hid]
    · rw [hother g hne, hinv.carries id' g hg']
  · intro g
    by_cases hg : g = f
    · rw [hg, hself, hpin]
      omega
    · rw [hother g hg]
      exact hinv.pinCount_nonneg g

/-- The frames, but for their data and dirty flags, and all the lists stay. -/
structure Same (pool pool' : BufferPoolManager n δ) : Prop where
  freeList : pool'.freeList = pool.freeList
  replacer : pool'.replacer = pool.replacer
  pageTable : pool'.pageTable = pool.pageTable
  id : ∀ f, (pool'.pages f).id = (pool.pages f).id
  pinCount : ∀ f, (pool'.pages f).pinCount = (pool.pages f).pinCount

theorem Same.refl (pool : BufferPoolManager n δ) : Same pool pool :=
  ⟨rfl, rfl, rfl, fun _ => rfl, fun _ => rfl⟩

theorem Same.trans (p q r : BufferPoolManager n δ) (h : Same p q) (h' : Same q r) : Same p r :=
  ⟨h'.1.trans h.1, h'.2.trans h.2, h'.3.trans h.3, fun f => (h'.4 f).trans (h.4 f),
    fun f => (h'.5 f).trans (h.5 f)⟩

theorem Inv.same (h : Inv pool) (hsame : Same pool pool') : Inv pool' := by
  obtain ⟨hfree, hreplacer, htable, hid, hpin⟩ := hsame
  refine ⟨⟨?_, ?_, ?_, ?_⟩, ?_, ?_⟩
  · intro f
    rw [hfree, hreplacer, hpin]
    exact h.onePlace f
  · rw [htable]
    exact h.injective
  · rw [htable, hfree]
    exact h.notFree
  · intro id f hf
    rw [hid]
    exact h.carries id f (htable ▸ hf)
  · rw [hfree]
    exact h.nodup
  · intro f
    rw [hpin]
    exact h.pinCount_nonneg f

theorem Same.clean (pool : BufferPoolManager n δ) (disk : δ) (f : Fin n) :
    Same pool ({ pool with disk }.modifyPage f fun page => { page with isDirty := false }) := by
  refine ⟨rfl, rfl, rfl, fun g => ?_, fun g => ?_⟩
  all_goals
    by_cases hg : g = f
    · subst hg
      simp [modifyPage]
    · simp [modifyPage, hg]

theorem flushPage_same : Moves Same (flushPage io id : PoolM n δ Bool) := by
  intro pool
  simp only [flushPage, runFrom_bind, runFrom_get]
  split
  · exact Same.refl pool
  · split
    · exact Same.refl pool
    · split
      · exact Same.refl pool
      · exact Same.clean pool _ _

theorem flushAllPages_same (fd : ℤ) : Moves Same (flushAllPages io fd : PoolM n δ Unit) := by
  refine Moves.forM Same.refl Same.trans fun f _ => ?_
  intro pool
  simp only [flushFrame, runFrom_bind, runFrom_get]
  split
  · split
    · exact Same.refl pool
    · exact Same.clean pool _ _
  · exact Same.refl pool

/-- A mapped frame stays where it is, but for its pin count. -/
theorem Inv.repin (h : Inv pool) (hmapped : pool.pageTable id = some f) (page : Page)
    (hid : page.id = (pool.pages f).id) (hpin : 0 ≤ page.pinCount)
    (hpages : pool'.pages = Function.update pool.pages f page)
    (hfree : pool'.freeList = pool.freeList) (htable : pool'.pageTable = pool.pageTable)
    (hplace : f ∈ pool'.replacer ↔ page.pinCount = 0)
    (hreplacer : ∀ g, g ≠ f → (g ∈ pool'.replacer ↔ g ∈ pool.replacer)) : Inv pool' := by
  have hself : pool'.pages f = page := by rw [hpages, Function.update_self]
  have hother : ∀ g, g ≠ f → pool'.pages g = pool.pages g := by
    intro g hg
    rw [hpages, Function.update_of_ne hg]
  refine ⟨⟨?_, ?_, ?_, ?_⟩, ?_, ?_⟩
  · intro g
    rw [hfree]
    by_cases hg : g = f
    · subst hg
      have hnotFree := h.notFree id g hmapped
      rw [hself, hplace]
      constructor
      · omega
      · exact fun hboth => hnotFree hboth.1
      · exact fun hmem => absurd hmem hnotFree
      · omega
    · rw [hother g hg, hreplacer g hg]
      exact h.onePlace g
  · rw [htable]
    exact h.injective
  · rw [htable, hfree]
    exact h.notFree
  · intro id' g hg
    rw [htable] at hg
    by_cases heq : g = f
    · rw [heq, hself, hid, h.carries id' f (heq ▸ hg)]
    · rw [hother g heq, h.carries id' g hg]
  · rw [hfree]
    exact h.nodup
  · intro g
    by_cases hg : g = f
    · rw [hg, hself]
      exact hpin
    · rw [hother g hg]
      exact h.pinCount_nonneg g

theorem start_inv (fds : Fin n → ℤ) (disk : δ) (fd2pageno : ℤ → ℤ) :
    Inv (start fds disk fd2pageno) := by
  refine ⟨⟨?_, nofun, nofun, nofun⟩, List.nodup_finRange n, fun f => Int.le_refl 0⟩
  intro f
  constructor
  · exact .inl (List.mem_finRange f)
  · exact fun hboth => absurd hboth.2 List.not_mem_nil
  · exact fun _ => Int.lt_irrefl 0
  · exact fun _ => Int.lt_irrefl 0

/-- The reads and writes that a call depends on succeed, `new_page` is not asked for a page of a
negative file descriptor once a frame was taken, and no page of the pool is deleted. -/
def Sound (io : DiskIo δ) (pool : BufferPoolManager n δ) : PoolCall → Prop
  | .fetchPage id => ∀ f claimed, pool.pageTable id = none → pool.victimOf = some (f, claimed) →
      ∃ disk, claimed.writeBack io f = some disk ∧ (io.readPage id disk).isSome
  | .newPage (some fd) => ∀ f claimed, pool.victimOf = some (f, claimed) →
      0 ≤ fd ∧ (fd < maxFd → (claimed.writeBack io f).isSome)
  | .deletePage id => ∀ f, pool.pageTable id = some f → (pool.pages f).pinCount = 0 →
      pool.writeBack io f = none
  | _ => True

theorem runFrom_discard {α : Type} (x : PoolM n δ α) :
    runFrom (discard x) pool = ((runFrom x pool).1.map fun _ => (), (runFrom x pool).2) := by
  change runFrom (x >>= fun _ => pure ()) pool = _
  rw [runFrom_bind]
  rcases runFrom x pool with ⟨_ | _, _⟩ <;> rfl

end Rmdb.BufferPoolManager
