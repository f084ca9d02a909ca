import Rmdb.Index.LeafEntries

/-! Whether a unique index refuses the keys that it holds. The check for duplicates is a lookup, and a lookup of the first
key of a leaf goes to the leaf before it. -/
namespace Rmdb
namespace IxIndexHandle

open SlotArray Program

variable {K : Type} [Inhabited K] {cmp : K → K → Ordering} {ih ih' : IxIndexHandle K} {key : K} {value : Rid}
  {leaves : List (Option K × ℤ)} {above : List (List (Option K × ℤ))}

/-- The leaves hold the key. -/
def Stores (cmp : K → K → Ordering) (ih : IxIndexHandle K) (key : K) : Prop :=
  ∃ entries, ih.leafEntries = .ok entries ∧ ∃ e ∈ entries, cmp e.1 key = .eq

/-- The leaves hold no key twice. -/
def KeysDiffer (cmp : K → K → Ordering) (ih : IxIndexHandle K) : Prop :=
  ∃ entries, ih.leafEntries = .ok entries ∧ Distinct cmp entries

/-- A leaf other than the first one begins with the key. -/
def StartsLeaf (cmp : K → K → Ordering) (ih : IxIndexHandle K) (key : K) : Prop :=
  ∃ pages, ih.leafPagesFrom ih.fuel ih.fileHdr.firstLeaf = .ok pages ∧ ∃ p ∈ pages.tail, cmp ((ih.nodeAt p).keys 0) key = .eq

def insertCall (cmp : K → K → Ordering) (e : K × Rid) : IxIndexHandle K → Option (IxIndexHandle K) :=
  call cmp (.insert e.1 e.2)

/-- The call throws for a key that is stored, and the index stays. -/
def RefusesStored (cmp : K → K → Ordering) (ih : IxIndexHandle K) (e : K × Rid) : Prop :=
  Stores cmp ih e.1 → ih.insertEntry cmp e.1 e.2 = .error .uniqueIndexViolation ∧ insertCall cmp e ih = some ih

/-- All along a run of insertions the keys in the leaves differ, and a call with one of them throws for it. -/
def RefusesRepeats (cmp : K → K → Ordering) : List (K × Rid) → IxIndexHandle K → Prop
  | [], ih => KeysDiffer cmp ih
  | e :: calls, ih => KeysDiffer cmp ih ∧ RefusesStored cmp ih e ∧
    ∀ ih', insertCall cmp e ih = some ih' → RefusesRepeats cmp calls ih'

/-! ### The check for duplicates -/

section tree
variable [Std.TransCmp cmp] (h : Tree cmp ih leaves above)

include h

theorem Tree.leafPages : ih.leafPagesFrom ih.fuel ih.fileHdr.firstLeaf = .ok (leaves.map Prod.snd) := by
  rw [(h.bPlusTree (.refl _)).chain, ← map_separated, h.above.stacked.separated_length]

theorem Tree.leafEntries : ih.leafEntries = .ok (ih.entriesOf leaves) := by
  unfold IxIndexHandle.leafEntries
  rw [h.leafPages, ← entriesIn_map]
  rfl

theorem Tree.stores_iff : Stores cmp ih key ↔ ∃ e ∈ ih.entriesOf leaves, cmp e.1 key = .eq := by
  unfold Stores
  rw [h.leafEntries]
  simp

theorem Tree.startsLeaf_iff : StartsLeaf cmp ih key ↔ ∃ x ∈ leaves.tail, ∃ k, x.1 = some k ∧ cmp k key = .eq := by
  unfold StartsLeaf
  rw [h.leafPages]
  simp only [Except.ok.injEq, exists_eq_left', ← List.map_tail, List.mem_map, exists_exists_and_eq_and]
  refine exists_congr fun x => and_congr_right fun hx => ?_
  rw [h.leaf.separator x hx]
  simp

theorem Tree.keysDiffer : KeysDiffer cmp ih := by
  refine ⟨_, h.leafEntries, h.leaf.sorted.imp fun hlt => ?_⟩
  rw [hlt]
  exact nofun

theorem Tree.exists_getValue (key : K) : ∃ found, ih.getValue cmp key = .ok found := by
  obtain ⟨x, ⟨pre, post, rfl, -⟩, hfind⟩ := h.findLeafPage key
  have hx : x ∈ pre ++ x :: post := by simp
  unfold getValue
  rw [hfind]
  exact ⟨_, leafLookup_eq (h.leaf.isLeaf x hx) (h.leaf.sortedKeys hx)⟩

/-- The check misses a stored key just when a leaf other than the first one begins with it. -/
theorem Tree.getValue_eq_none_iff (hstored : Stores cmp ih key) :
    ih.getValue cmp key = .ok none ↔ StartsLeaf cmp ih key := by
  obtain ⟨x, ⟨pre, post, hsplit, hbelow, habove⟩, hfind⟩ := h.findLeafPage key
  have hx : x ∈ leaves := by simp [hsplit]
  have hget : ih.getValue cmp key = .ok (lookup cmp (ih.nodeAt x.2).entries key) := by
    unfold getValue
    rw [hfind]
    exact leafLookup_eq (h.leaf.isLeaf x hx) (h.leaf.sortedKeys hx)
  rw [hget, Except.ok.injEq, lookup_eq_none, h.startsLeaf_iff]
  constructor
  · intro hmissed
    obtain ⟨e, he, heq⟩ := h.stores_iff.mp hstored
    rw [hsplit, entriesOf_append, entriesOf_cons, List.mem_append, List.mem_append] at he
    rcases he with he | he | he
    · -- the leaves on the left hold smaller keys
      obtain ⟨k, hk⟩ : ∃ k, x.1 = some k := by
        have htail : x ∈ leaves.tail := by
          cases pre with
          | nil => cases he
          | cons y pre => simp [hsplit]
        exact ⟨_, h.leaf.separator x htail⟩
      obtain ⟨hleft, -⟩ := h.leaf.separates (show leaves = pre ++ (some k, x.2) :: post by rw [hsplit, ← hk])
      have hlt := Std.TransCmp.lt_trans (hleft e he) (hbelow x (by simp) k hk)
      rw [hlt] at heq
      cases heq
    · exact absurd heq (hmissed e he)
    · obtain ⟨y, hy, hey⟩ := List.mem_flatMap.mp he
      obtain ⟨k, hk, hge⟩ := habove y hy
      obtain ⟨a, b, rfl⟩ := List.append_of_mem hy
      obtain ⟨-, hright⟩ := h.leaf.separates (show leaves = (pre ++ x :: a) ++ (some k, y.2) :: b by
        rw [hsplit, ← hk]
        simp)
      have hle : cmp k e.1 ≠ .gt := hright e (by rw [entriesOf_cons]; exact List.mem_append_left _ hey)
      refine ⟨y, ?_, k, hk, ?_⟩
      · rw [hsplit]
        cases pre <;> simp
      · rw [Std.TransCmp.congr_right heq] at hle
        cases hcmp : cmp k key with
        | lt => exact absurd hcmp hge
        | eq => rfl
        | gt => exact absurd hcmp hle
  · rintro ⟨y, hy, k, hk, heq⟩ e he
    have hmem := List.mem_of_mem_tail hy
    rw [hsplit, List.append_cons, List.mem_append] at hmem
    have hpost : y ∈ post := by
      refine hmem.resolve_left fun hin => ?_
      rw [hbelow y hin k hk] at heq
      cases heq
    obtain ⟨a, b, rfl⟩ := List.append_of_mem hpost
    obtain ⟨hleft, -⟩ := h.leaf.separates (show leaves = (pre ++ x :: a) ++ (some k, y.2) :: b by
      rw [hsplit, ← hk]
      simp)
    have hlt := hleft e (by
      rw [entriesOf_append, entriesOf_cons]
      exact List.mem_append_right _ (List.mem_append_left _ he))
    rw [← Std.TransCmp.congr_right heq, hlt]
    exact nofun

theorem Tree.stores_of_startsLeaf (hstarts : StartsLeaf cmp ih key) : Stores cmp ih key := by
  obtain ⟨x, hx, k, hk, heq⟩ := h.startsLeaf_iff.mp hstarts
  have hlong : 1 < leaves.length := by
    have hpos := List.length_pos_of_mem hx
    rw [List.length_tail] at hpos
    omega
  have hmem := List.mem_of_mem_tail hx
  have hkey : (ih.nodeAt x.2).keys 0 = k := Option.some.inj ((h.leaf.separator x hx).symm.trans hk)
  refine h.stores_iff.mpr ⟨_, List.mem_flatMap.mpr ⟨x, hmem, mem_entries_iff.mpr ⟨0, h.leaf.nonempty hlong x hmem, rfl⟩⟩, ?_⟩
  exact hkey ▸ heq

end tree

/-- Behind the check nothing refuses a key. -/
theorem insertEntry_ne_violation (h : Usable ih) (hnone : ih.getValue cmp key = .ok none) :
    ih.insertEntry cmp key value ≠ .error .uniqueIndexViolation := by
  obtain ⟨⟨height, hsound⟩, hroot⟩ := h
  intro herror
  have hends : Gives (fun r => ∃ height', Evolves height ih height' r.2) (ih.insertEntry cmp key value) := by
    unfold IxIndexHandle.insertEntry
    split
    · rw [hnone]
      exact hsound.insertChecked cmp hroot key value
    · exact hsound.insertChecked cmp hroot key value
  rw [herror] at hends
  exact hends.2 rfl

theorem insertEntry_of_found {rid : Rid} (hunique : ih.unique = true) (hfound : ih.getValue cmp key = .ok (some rid)) :
    ih.insertEntry cmp key value = .error .uniqueIndexViolation := by
  unfold IxIndexHandle.insertEntry
  rw [if_pos hunique, hfound]
  rfl

/-! ### Runs -/

/-- A unique index that only insertions have made. -/
structure Grown (cmp : K → K → Ordering) (ih : IxIndexHandle K) : Prop where
  unique : ih.unique = true
  usable : Usable ih
  tree : ∃ leaves above, Tree cmp ih leaves above

variable [Std.TransCmp cmp]

theorem Grown.stepped (h : Grown cmp ih) {e : K × Rid} (hstarts : ¬StartsLeaf cmp ih e.1) :
    RefusesStored cmp ih e ∧ ∀ ih', insertCall cmp e ih = some ih' → Grown cmp ih' := by
  obtain ⟨leaves, above, htree⟩ := h.tree
  have hrefuses : RefusesStored cmp ih e := by
    intro hstored
    obtain ⟨found, hget⟩ := htree.exists_getValue e.1
    cases found with
    | none => exact absurd ((htree.getValue_eq_none_iff hstored).mp hget) hstarts
    | some rid =>
      have herror : ih.insertEntry cmp e.1 e.2 = .error .uniqueIndexViolation := insertEntry_of_found h.unique hget
      refine ⟨herror, ?_⟩
      change ih.indexAfter (ih.insertEntry cmp e.1 e.2) = some ih
      rw [herror]
      rfl
  refine ⟨hrefuses, fun ih' hcall => ?_⟩
  by_cases hstored : Stores cmp ih e.1
  · rw [(hrefuses hstored).2] at hcall
    exact Option.some.inj hcall ▸ h
  · have hnew : ∀ o ∈ ih.entriesOf leaves, cmp o.1 e.1 ≠ .eq := fun o ho heq =>
      hstored (htree.stores_iff.mpr ⟨o, ho, heq⟩)
    have hcall : ih.indexAfter (ih.insertEntry cmp e.1 e.2) = some ih' := hcall
    have hends := htree.insertEntry e.2 hnew
    cases hrun : ih.insertEntry cmp e.1 e.2 with
    | error err =>
      rw [hrun] at hends hcall
      rcases hends with rfl | rfl
      · cases hcall
      · cases hcall
    | ok r =>
      rw [hrun] at hends hcall
      obtain rfl : r.2 = ih' := Option.some.inj hcall
      obtain ⟨hunique, leaves', above', htree', -⟩ := hends
      obtain ⟨⟨height, hsound⟩, hroot⟩ := h.usable
      have hsound' := hsound.insertEntry cmp hroot e.1 e.2
      rw [hrun] at hsound'
      obtain ⟨height', hev⟩ := hsound'
      exact ⟨hunique.trans h.unique, ⟨⟨height', hev.sound⟩, hev.usable hroot⟩, leaves', above', htree'⟩

theorem grown_freshIndex (cmp : K → K → Ordering) (btreeOrder colTotLen : ℕ) :
    Grown cmp (freshIndex btreeOrder colTotLen true) :=
  ⟨rfl, ⟨⟨_, sound_freshIndex btreeOrder colTotLen true⟩, holdsNode_freshIndex btreeOrder colTotLen true⟩, _, _,
    tree_freshIndex cmp btreeOrder colTotLen true⟩

theorem Grown.refuses_iff (h : Grown cmp ih) (calls : List (K × Rid)) :
    RefusesRepeats cmp calls ih ↔ Runs.AllMeet (insertCall cmp) (fun e ih => ¬StartsLeaf cmp ih e.1) calls ih := by
  obtain ⟨leaves, above, htree⟩ := h.tree
  induction calls generalizing ih leaves above with
  | nil => exact iff_of_true htree.keysDiffer trivial
  | cons e calls hrec =>
    by_cases hstarts : StartsLeaf cmp ih e.1
    · refine iff_of_false (fun hrun => ?_) fun hmeets => hmeets.1 hstarts
      have hstored := htree.stores_of_startsLeaf hstarts
      have hmissed := (htree.getValue_eq_none_iff hstored).mpr hstarts
      exact insertEntry_ne_violation h.usable hmissed (hrun.2.1 hstored).1
    · obtain ⟨hrefuses, hgrown⟩ := h.stepped hstarts
      have hrest : ∀ ih', insertCall cmp e ih = some ih' → (RefusesRepeats cmp calls ih' ↔ _) := fun ih' hcall =>
        have ⟨leaves', above', htree'⟩ := (hgrown ih' hcall).tree
        hrec (hgrown ih' hcall) leaves' above' htree'
      exact ⟨fun hrun => ⟨hstarts, fun ih' hcall => (hrest ih' hcall).mp (hrun.2.2 ih' hcall)⟩,
        fun hmeets => ⟨htree.keysDiffer, hrefuses, fun ih' hcall => (hrest ih' hcall).mpr (hmeets.2 ih' hcall)⟩⟩

/-- Along a run of insertions on a fresh unique index no key comes twice and each repeated key is refused just when no
call brings the first key of a leaf other than the first one. -/
theorem refusesRepeats_iff (cmp : K → K → Ordering) [Std.TransCmp cmp] (btreeOrder colTotLen : ℕ) (calls : List (K × Rid)) :
    RefusesRepeats cmp calls (freshIndex btreeOrder colTotLen true) ↔
      Runs.AllMeet (insertCall cmp) (fun e ih => ¬StartsLeaf cmp ih e.1) calls (freshIndex btreeOrder colTotLen true) :=
  (grown_freshIndex cmp btreeOrder colTotLen).refuses_iff calls

omit [Std.TransCmp cmp] in
theorem RefusesRepeats.keysDiffer {calls : List (K × Rid)} (h : RefusesRepeats cmp calls ih)
    (hrun : Runs.run (insertCall cmp) calls ih = some ih') : KeysDiffer cmp ih' := by
  induction calls generalizing ih with
  | nil => exact Option.some.inj hrun ▸ h
  | cons e calls hrec =>
    obtain ⟨mid, hcall, hrun⟩ := Option.bind_eq_some_iff.mp hrun
    exact hrec (h.2.2 mid hcall) hrun

/-- The eighth of eight ascending keys splits the leaf, the fifth one begins the new leaf, and inserted again it goes to
the end of the old one. -/
theorem not_refusesRepeats : ∃ index ih : IxIndexHandle (IxKey charCols), createIndex 496 true = .ok index ∧
    Runs.run (insertCall IxKey.cmp) (charEntries ++ [(charKey 5, ⟨1, 9⟩)]) index = some ih ∧
      ih.leafEntries = .ok (charEntries.take 4 ++ (charKey 5, ⟨1, 9⟩) :: charEntries.drop 4) ∧
      ¬RefusesRepeats IxKey.cmp (charEntries ++ [(charKey 5, ⟨1, 9⟩)]) index := by
  obtain ⟨index, hcreate, ih, hrun, hentries⟩ : ∃ index : IxIndexHandle (IxKey charCols), createIndex 496 true = .ok index ∧
      ∃ ih, Runs.run (insertCall IxKey.cmp) (charEntries ++ [(charKey 5, ⟨1, 9⟩)]) index = some ih ∧
        ih.leafEntries = .ok (charEntries.take 4 ++ (charKey 5, ⟨1, 9⟩) :: charEntries.drop 4) :=
    ⟨_, rfl, _, rfl, rfl⟩
  refine ⟨index, ih, hcreate, hrun, hentries, fun hrefuses => ?_⟩
  obtain ⟨entries, hread, hdistinct⟩ := hrefuses.keysDiffer hrun
  rw [hentries, Except.ok.injEq] at hread
  rw [← hread] at hdistinct
  revert hdistinct
  unfold Distinct
  decide

theorem refusesRepeats_again :
    RefusesRepeats IxKey.cmp [(charKey 1, ⟨1, 1⟩), (charKey 1, ⟨1, 2⟩)] (freshIndex 7 496 true) := by
  refine (refusesRepeats_iff IxKey.cmp 7 496 _).mpr ⟨?_, fun ih' hcall => ⟨?_, fun _ _ => trivial⟩⟩
  · rintro ⟨pages, hpages, p, hp, -⟩
    cases hpages
    cases hp
  · cases hcall
    rintro ⟨pages, hpages, p, hp, -⟩
    cases hpages
    cases hp

end IxIndexHandle
end Rmdb
