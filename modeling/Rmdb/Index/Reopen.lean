import Rmdb.Index.RootPage

/-! An index file over closings and openings. The number of the next page is kept by the disk manager for each
descriptor and is not in the file: `create_index` leaves it, the constructor with metadata adds one to it, the other
constructor takes it as it is, and a new process starts with zeros. -/
namespace Rmdb

open Program

namespace IxIndexHandle

variable {K : Type} {ih : IxIndexHandle K} {height : ℤ → ℕ} {p count : ℤ}

def withCount (ih : IxIndexHandle K) (count : ℤ) : IxIndexHandle K := { ih with fd2pageno := count }

theorem Sound.withCount (h : Sound height ih) (hcount : ∀ p, ih.Holds p → p < count) : Sound height (ih.withCount count) where
  header := h.header
  pageNo := h.pageNo
  range p hp := ⟨(h.range p hp).1, hcount p hp⟩
  placed p node hnode := (h.placed p node hnode).mono (fun _ hp => hp) fun _ _ hp => hp
  height_lt := h.height_lt

end IxIndexHandle

/-- The file of an index, the counters `fd2pageno_` of the disk manager and the descriptor of the open file. The header
and the pages are those of the handle, which `close_index` writes to the file. -/
structure IxFile (K : Type) where
  index : IxIndexHandle K
  fd2pageno : ℤ → ℤ
  opened : Option ℤ

inductive IxFileCall (K : Type) where
  | insertEntry (key : K) (value : Rid)
  | closeIndex
  /-- The operating system opens the file under `fd`. With metadata the index is unique or not as these say. -/
  | openIndex (fd : ℤ) (metaUnique : Option Bool)
  /-- All files are closed, and a new process starts. -/
  | restart
  /-- Another file has the descriptor, and its owner sets or advances the counter. -/
  | otherFile (fd count : ℤ)

namespace IxFile

variable {K : Type} [Inhabited K] {cmp : K → K → Ordering} {s s' : IxFile K} {call : IxFileCall K}

/-- The counter of a descriptor after the constructor of the handle. -/
def countAfterOpen (s : IxFile K) (fd : ℤ) (metaUnique : Option Bool) : ℤ :=
  if metaUnique.isSome then s.fd2pageno fd + 1 else s.fd2pageno fd

/-- An index that is open already is not opened again: the call throws. Without metadata the handle takes its index to
be unique. -/
def step (cmp : K → K → Ordering) : IxFileCall K → IxFile K → Option (IxFile K)
  | .insertEntry key value, s =>
    match s.opened with
    | none => none
    | some fd =>
      let ih := s.index.withCount (s.fd2pageno fd)
      (ih.indexAfter (ih.insertEntry cmp key value)).map fun ih' =>
        { s with index := ih', fd2pageno := Function.update s.fd2pageno fd ih'.fd2pageno }
  | .closeIndex, s =>
    match s.opened with
    | none => none
    | some _ => some { s with opened := none }
  | .openIndex fd metaUnique, s =>
    match s.opened with
    | some _ => some s
    | none => some
        { index := { s.index with unique := metaUnique.getD true }
          fd2pageno := Function.update s.fd2pageno fd (s.countAfterOpen fd metaUnique)
          opened := some fd }
  | .restart, s => some { s with fd2pageno := fun _ => 0, opened := none }
  | .otherFile fd count, s =>
    if s.opened = some fd then none else some { s with fd2pageno := Function.update s.fd2pageno fd count }

/-- What `create_index` leaves: it sets the counter of its descriptor and closes the file. -/
def create (btreeOrder colTotLen : ℕ) (fd2pageno : ℤ → ℤ) (fd : ℤ) : IxFile K where
  index := IxIndexHandle.freshIndex btreeOrder colTotLen true
  fd2pageno := Function.update fd2pageno fd (ixInitNumPages - 1)
  opened := none

/-- `create_node` hands out the values of the counter one after another. None of those of an insertion is the number of
the file header, of the leaf header or of a node. -/
def Fresh (s : IxFile K) (call : IxFileCall K) (s' : IxFile K) : Prop :=
  match call with
  | .insertEntry _ _ => ∀ fd, s.opened = some fd → ∀ n, s.fd2pageno fd ≤ n → n < s'.fd2pageno fd →
      n ≠ 0 ∧ n ≠ ixLeafHeaderPage ∧ s.index.pages n = none
  | _ => True

/-- An opening of the file finds the counter of its descriptor, as its constructor leaves it, above all pages of the
file. -/
def Restored (call : IxFileCall K) (s : IxFile K) : Prop :=
  match call with
  | .openIndex fd metaUnique => s.opened = none → ∀ p, s.index.Holds p → p < s.countAfterOpen fd metaUnique
  | _ => True

/-- While the file is open, its pages are below the counter of its descriptor. -/
structure Inv (s : IxFile K) : Prop where
  root : s.index.HoldsNode s.index.fileHdr.rootPage
  sound : ∃ height count, IxIndexHandle.Sound height (s.index.withCount count) ∧
    ∀ fd, s.opened = some fd → s.fd2pageno fd = count

theorem inv_create (btreeOrder colTotLen : ℕ) (fd2pageno : ℤ → ℤ) (fd : ℤ) :
    Inv (create btreeOrder colTotLen fd2pageno fd : IxFile K) where
  root := IxIndexHandle.holdsNode_freshIndex btreeOrder colTotLen true
  sound := ⟨_, _, IxIndexHandle.sound_freshIndex btreeOrder colTotLen true, nofun⟩

namespace Inv

theorem insertEntry (h : Inv s) {key : K} {value : Rid} (hstep : step cmp (.insertEntry key value) s = some s') :
    Fresh s (.insertEntry key value) s' ∧ Inv s' := by
  obtain ⟨height, count, hsound, hcount⟩ := h.sound
  cases hopened : s.opened with
  | none =>
    rw [step, hopened] at hstep
    cases hstep
  | some fd =>
    have hfd := hcount fd hopened
    subst hfd
    rw [step, hopened] at hstep
    obtain ⟨ih', hafter, hs'⟩ := Option.map_eq_some_iff.mp hstep
    have hroot : (s.index.withCount (s.fd2pageno fd)).HoldsNode (s.index.withCount (s.fd2pageno fd)).fileHdr.rootPage := h.root
    obtain ⟨height', hev⟩ := IxIndexHandle.Gives.indexAfter
      (Q := fun ih' => ∃ height', IxIndexHandle.Evolves height (s.index.withCount (s.fd2pageno fd)) height' ih')
      (hsound.insertEntry cmp hroot key value) ⟨height, (IxIndexHandle.Rewrites.refl hsound).toEvolves⟩ hafter
    constructor
    · intro fd' hfd' n hle _
      obtain rfl : fd = fd' := Option.some.inj (hopened.symm.trans hfd')
      have hheader := (hsound.range _ hsound.header).2
      have hbelow : ∀ p, s.index.Holds p → p < s.fd2pageno fd := fun p hp => (hsound.range p hp).2
      unfold ixLeafHeaderPage at hheader ⊢
      refine ⟨?_, ?_, ?_⟩
      · have hpos : (1 : ℤ) < s.fd2pageno fd := hheader
        omega
      · have hpos : (1 : ℤ) < s.fd2pageno fd := hheader
        omega
      · cases hpage : s.index.pages n with
        | none => rfl
        | some node => exact absurd (hbelow n (hsound.holds hpage)) (Int.not_lt.mpr hle)
    · subst hs'
      refine ⟨hev.usable hroot, height', ih'.fd2pageno, hev.sound, fun fd' hfd' => ?_⟩
      obtain rfl : fd = fd' := Option.some.inj hfd'
      exact Function.update_self ..

theorem openIndex (h : Inv s) {fd : ℤ} {metaUnique : Option Bool} (hrestored : Restored (.openIndex fd metaUnique) s)
    (hstep : step cmp (.openIndex fd metaUnique) s = some s') : Inv s' := by
  obtain ⟨height, count, hsound, hcount⟩ := h.sound
  cases hopened : s.opened with
  | some fd' =>
    rw [step, hopened] at hstep
    exact Option.some.inj hstep ▸ h
  | none =>
    rw [step, hopened] at hstep
    obtain rfl := Option.some.inj hstep
    have hreopened := hsound.withCount (hrestored hopened)
    refine ⟨h.root, height, s.countAfterOpen fd metaUnique, ?_, fun fd' hfd' => ?_⟩
    · exact ⟨hreopened.header, hreopened.pageNo, hreopened.range,
        fun p node hnode => (hreopened.placed p node hnode).mono (fun _ hp => hp) fun _ _ hp => hp, hreopened.height_lt⟩
    · obtain rfl : fd = fd' := Option.some.inj hfd'
      exact Function.update_self ..

theorem step (h : Inv s) (hrestored : Restored call s) (hstep : step cmp call s = some s') : Fresh s call s' ∧ Inv s' := by
  cases call with
  | insertEntry key value => exact h.insertEntry hstep
  | openIndex fd metaUnique => exact ⟨trivial, h.openIndex hrestored hstep⟩
  | closeIndex =>
    cases hopened : s.opened with
    | none =>
      rw [IxFile.step, hopened] at hstep
      cases hstep
    | some fd =>
      rw [IxFile.step, hopened] at hstep
      obtain rfl := Option.some.inj hstep
      obtain ⟨height, count, hsound, -⟩ := h.sound
      exact ⟨trivial, h.root, height, count, hsound, nofun⟩
  | restart =>
    obtain rfl := Option.some.inj hstep
    obtain ⟨height, count, hsound, -⟩ := h.sound
    exact ⟨trivial, h.root, height, count, hsound, nofun⟩
  | otherFile fd count =>
    by_cases hopened : s.opened = some fd
    · rw [IxFile.step, if_pos hopened] at hstep
      cases hstep
    · rw [IxFile.step, if_neg hopened] at hstep
      obtain rfl := Option.some.inj hstep
      obtain ⟨height, count', hsound, hcount⟩ := h.sound
      refine ⟨trivial, h.root, height, count', hsound, fun fd' hfd' => ?_⟩
      have hne : fd' ≠ fd := fun heq => hopened (heq ▸ hfd')
      exact (Function.update_of_ne hne ..).trans (hcount fd' hfd')

end Inv

/-- A run on a new index in which every opening finds the counter above the pages of the file hands out fresh page
numbers only. -/
theorem fresh_of_restored (cmp : K → K → Ordering) (btreeOrder colTotLen : ℕ) (fd2pageno : ℤ → ℤ) (fd : ℤ)
    (calls : List (IxFileCall K))
    (hrestored : Runs.AllMeet (step cmp) Restored calls (create btreeOrder colTotLen fd2pageno fd)) :
    Runs.Along (step cmp) Fresh calls (create btreeOrder colTotLen fd2pageno fd) :=
  Runs.along_of_allMeet (fun _ _ _ hinv hmeets hstep => Inv.step hinv hmeets hstep)
    (inv_create btreeOrder colTotLen fd2pageno fd) hrestored

/-- The new index is opened with its metadata, closed, opened again under the same descriptor and filled with one key. -/
theorem fresh_of_restored_reopen :
    Runs.Along (step IxKey.cmp) Fresh [.openIndex 5 (some true), .closeIndex, .openIndex 5 none,
      .insertEntry (IxIndexHandle.charKey 1) ⟨1, 1⟩] (create 7 496 (fun _ => 0) 5) := by
  have hpages : ∀ p, (create 7 496 (fun _ => 0) 5 : IxFile (IxKey IxIndexHandle.charCols)).index.Holds p → p < 3 := fun p hp =>
    ((IxIndexHandle.sound_freshIndex 7 496 true).range p hp).2
  refine fresh_of_restored IxKey.cmp 7 496 (fun _ => 0) 5 _ ⟨fun _ => hpages, fun s hs => ?_⟩
  obtain rfl := Option.some.inj hs
  refine ⟨trivial, fun s hs => ?_⟩
  obtain rfl := Option.some.inj hs
  refine ⟨fun _ => hpages, fun s hs => ?_⟩
  obtain rfl := Option.some.inj hs
  exact ⟨trivial, fun _ _ => trivial⟩

/-- An insertion into the open file is one into its index. -/
theorem step_insertEntry {fd q : ℤ} {ih' : IxIndexHandle K} {key : K} {value : Rid} (hopened : s.opened = some fd)
    (hinsert : (s.index.withCount (s.fd2pageno fd)).insertEntry cmp key value = .ok (q, ih')) :
    step cmp (.insertEntry key value) s =
      some { s with index := ih', fd2pageno := Function.update s.fd2pageno fd ih'.fd2pageno } := by
  rw [step, hopened]
  dsimp only
  rw [hinsert]
  rfl

theorem run_insertEntries {fd : ℤ} {ih' : IxIndexHandle K} {entries : List (K × Rid)} (hopened : s.opened = some fd)
    (hrun : (s.index.withCount (s.fd2pageno fd)).insertEntries cmp entries = .ok ih') :
    ∃ s', Runs.run (step cmp) (entries.map fun e => .insertEntry e.1 e.2) s = some s' ∧ s'.opened = some fd ∧
      s'.index.withCount (s'.fd2pageno fd) = ih' := by
  induction entries generalizing s with
  | nil => exact ⟨s, rfl, hopened, Except.ok.inj hrun⟩
  | cons e entries hrec =>
    unfold IxIndexHandle.insertEntries at hrun
    rw [List.foldlM_cons] at hrun
    obtain ⟨ih₁, hfirst, hrest⟩ := bind_eq_ok.mp hrun
    obtain ⟨q, hinsert⟩ : ∃ q, (s.index.withCount (s.fd2pageno fd)).insertEntry cmp e.1 e.2 = .ok (q, ih₁) := by
      cases hinsert : (s.index.withCount (s.fd2pageno fd)).insertEntry cmp e.1 e.2 with
      | error error =>
        rw [hinsert] at hfirst
        cases hfirst
      | ok r =>
        rw [hinsert] at hfirst
        exact ⟨r.1, by rw [← Except.ok.inj hfirst]⟩
    obtain ⟨s₁, hs₁⟩ : ∃ s₁ : IxFile K, s₁ = { s with
      index := ih₁, fd2pageno := Function.update s.fd2pageno fd ih₁.fd2pageno } := ⟨_, rfl⟩
    have hcount : s₁.index.withCount (s₁.fd2pageno fd) = ih₁ := by
      rw [hs₁]
      dsimp only
      rw [Function.update_self]
      rfl
    have hopened₁ : s₁.opened = some fd := by rw [hs₁]; exact hopened
    obtain ⟨s', hs', hlast⟩ := hrec hopened₁ (hcount.symm ▸ hrest)
    refine ⟨s', ?_, hlast⟩
    rw [List.map_cons, Runs.run, step_insertEntry hopened hinsert, ← hs₁]
    exact hs'

/-- The file is closed, and a new process opens it as `open_db` does. The split for the eighth key gets the pages of the
two headers; the second one becomes the root. -/
theorem not_fresh_charIndex : ∃ s s' : IxFile (IxKey IxIndexHandle.charCols),
    Runs.run (step IxKey.cmp) ([.openIndex 5 (some true), .closeIndex, .restart, .openIndex 5 none] ++
      (IxIndexHandle.charEntries.take 7).map fun e => .insertEntry e.1 e.2) (create 7 496 (fun _ => 0) 5) = some s ∧
    step IxKey.cmp (.insertEntry (IxIndexHandle.charKey 8) ⟨1, 8⟩) s = some s' ∧ s.opened = some 5 ∧ s.fd2pageno 5 = 0 ∧
    s'.fd2pageno 5 = 2 ∧ s'.index.fileHdr.rootPage = ixLeafHeaderPage ∧
    ¬Fresh s (.insertEntry (IxIndexHandle.charKey 8) ⟨1, 8⟩) s' := by
  obtain ⟨s₀, hs₀, hopened₀, hindex₀⟩ : ∃ s₀ : IxFile (IxKey IxIndexHandle.charCols),
      Runs.run (step IxKey.cmp) [.openIndex 5 (some true), .closeIndex, .restart, .openIndex 5 none]
        (create 7 496 (fun _ => 0) 5) = some s₀ ∧ s₀.opened = some 5 ∧
      s₀.index.withCount (s₀.fd2pageno 5) = (IxIndexHandle.freshIndex 7 496 true).withCount 0 := ⟨_, rfl, rfl, rfl⟩
  obtain ⟨ih₇, ih₈, q, hrun₇, hinsert, hcount₇, hcount₈, hroot⟩ :
    ∃ (ih₇ ih₈ : IxIndexHandle (IxKey IxIndexHandle.charCols)) (q : ℤ),
      ((IxIndexHandle.freshIndex 7 496 true).withCount 0).insertEntries IxKey.cmp (IxIndexHandle.charEntries.take 7) =
        .ok ih₇ ∧ ih₇.insertEntry IxKey.cmp (IxIndexHandle.charKey 8) ⟨1, 8⟩ = .ok (q, ih₈) ∧
      ih₇.fd2pageno = 0 ∧ ih₈.fd2pageno = 2 ∧ ih₈.fileHdr.rootPage = ixLeafHeaderPage :=
    ⟨_, _, _, rfl, rfl, rfl, rfl, rfl⟩
  obtain ⟨s, hrun, hopened, hindex⟩ := run_insertEntries hopened₀ (hindex₀.symm ▸ hrun₇)
  have hbefore : s.fd2pageno 5 = 0 := by
    rw [← hcount₇, ← hindex]
    rfl
  have hafter : Function.update s.fd2pageno 5 ih₈.fd2pageno 5 = 2 := by rw [Function.update_self, hcount₈]
  refine ⟨s, _, ?_, step_insertEntry hopened (hindex ▸ hinsert), hopened, hbefore, hafter, hroot, fun hfresh => ?_⟩
  · rw [Runs.run_append, hs₀]
    exact hrun
  · have hbelow : 0 < Function.update s.fd2pageno 5 ih₈.fd2pageno 5 := by rw [hafter]; decide
    have hzero := hfresh 5 hopened 0 (Int.le_of_eq hbefore) hbelow
    exact hzero.1 rfl

end IxFile
end Rmdb
