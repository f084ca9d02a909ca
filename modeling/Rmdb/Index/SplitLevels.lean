import Rmdb.Index.Levels

/-! What `insert_into_parent` makes of the levels. The level with the new page is complete before the call,
the levels above it do not know of that page yet. -/
namespace Rmdb
namespace IxIndexHandle

open SlotArray Program

variable {K : Type} [Inhabited K] {cmp : K → K → Ordering} {ih ih' : IxIndexHandle K}
  {low up l₁ l₂ u₁ u₂ : List (Option K × ℤ)} {above : List (List (Option K × ℤ))} {x y : Option K × ℤ} {below : List ℤ}
  {newNode : ℤ} {key : K}

/-- The levels of a tree from `low` up to the root, on pages apart from the ones in `below`. -/
structure Above (ih : IxIndexHandle K) (below : List ℤ) (low : List (Option K × ℤ))
    (above : List (List (Option K × ℤ))) : Prop where
  stacked : ih.Stacked low above
  pages : ih.Pages (below ++ (low ++ above.flatten).map Prod.snd)

/-- A call that leaves the pages in `below` alone and the pages in `low` up to their parents. -/
structure Keeps (ih ih' : IxIndexHandle K) (below : List ℤ) (low : List (Option K × ℤ)) : Prop where
  ext : Extends ih ih'
  below : ∀ p ∈ below, ih'.nodeAt p = ih.nodeAt p
  low : ∀ c ∈ low, ∃ parent, ih'.nodeAt c.2 = { ih.nodeAt c.2 with parent := parent }

theorem Above.pages_around (h : Above ih below low above) (hsplit : low = l₁ ++ x :: l₂) :
    ih.Pages (below ++ (l₁ ++ x :: (l₂ ++ above.flatten)).map Prod.snd) := by
  have hpages := h.pages
  rw [hsplit, List.append_assoc, List.cons_append] at hpages
  exact hpages

omit [Inhabited K] in
theorem children_of_parent {node : IxNodeHandle K} {sep : Option K} (parent : ℤ) :
    ({ node with parent := parent } : IxNodeHandle K).children sep = node.children sep := by
  unfold IxNodeHandle.children
  congr 1

theorem Keeps.trans {ih'' : IxIndexHandle K} (h : Keeps ih ih' below low) (h' : Keeps ih' ih'' below low) :
    Keeps ih ih'' below low where
  ext := h.ext.trans h'.ext
  below p hp := by rw [h'.below p hp, h.below p hp]
  low c hc := by
    obtain ⟨parent, hparent⟩ := h'.low c hc
    obtain ⟨parent', hparent'⟩ := h.low c hc
    exact ⟨parent, by rw [hparent, hparent']⟩

/-- The root has been split. -/
theorem growRoot_above (h : ih.Stacked (l₁ ++ x :: l₂) [])
    (hpages : ih.Pages (below ++ (l₁ ++ x :: (some key, newNode) :: l₂).map Prod.snd)) :
    (ih.nodeAt x.2).isRootPage ∧ ∃ ih', ih.growRoot x.2 key newNode = .ok ih' ∧
      Keeps ih ih' below (l₁ ++ x :: (some key, newNode) :: l₂) ∧
      ∃ above', Above ih' below (l₁ ++ x :: (some key, newNode) :: l₂) above' := by
  obtain ⟨hlow, hroot⟩ := h
  obtain ⟨rfl, rfl, rfl⟩ : l₁ = [] ∧ l₂ = [] ∧ x = (none, ih.fileHdr.rootPage) := by
    cases l₁ with
    | nil =>
      rw [List.nil_append, List.cons.injEq] at hlow
      exact ⟨rfl, hlow.2, hlow.1⟩
    | cons z l₁ => simp at hlow
  refine ⟨hroot, ?_⟩
  have hmem : ∀ p, p ∈ below ∨ p = ih.fileHdr.rootPage ∨ p = newNode →
      p ∈ below ++ ([] ++ (none, ih.fileHdr.rootPage) :: [(some key, newNode)]).map Prod.snd := by
    intro p hp
    simpa using hp
  have hnodup := hpages.nodup
  rw [List.nodup_append] at hnodup
  obtain ⟨-, htwo, hapart⟩ := hnodup
  have hne : ih.fileHdr.rootPage ≠ newNode := by
    intro heq
    simp [heq] at htwo
  have hleft := hpages.range _ (hmem _ (.inr (.inl rfl)))
  have hright := hpages.range _ (hmem _ (.inr (.inr rfl)))
  obtain ⟨ih', hgrow, hext, hroot', root, hpage, hparent, hleaf, hnum, hkey, hzero, hone, hnodes⟩ :=
    growRoot_eq key (hpages.holds _ (hmem _ (.inr (.inl rfl)))) (hpages.holds _ (hmem _ (.inr (.inr rfl)))) hne
      (by omega) (by omega)
  have hnodeRoot : ih'.nodeAt ih.fd2pageno = root := by
    rw [hnodes, growRootPages, Function.update_of_ne (by omega), Function.update_of_ne (by omega), ← hpage,
      Function.update_self]
  have hnodeLeft : ih'.nodeAt ih.fileHdr.rootPage = { ih.nodeAt ih.fileHdr.rootPage with parent := ih.fd2pageno } := by
    rw [hnodes, growRootPages, Function.update_of_ne hne, Function.update_self, hpage]
  have hnodeRight : ih'.nodeAt newNode = { ih.nodeAt newNode with parent := ih.fd2pageno } := by
    rw [hnodes, growRootPages, Function.update_self, hpage]
  have hchildren : ih'.children (none, ih.fd2pageno) = [(none, ih.fileHdr.rootPage), (some key, newNode)] := by
    unfold children IxNodeHandle.children
    rw [hnodeRoot, hnum, toList, List.range_succ, List.range_succ]
    simp [IxNodeHandle.child, hzero, hone, hkey]
  refine ⟨ih', hgrow, ⟨extends_createNode.trans hext, fun p hp => ?_, fun c hc => ?_⟩, [[(none, ih.fd2pageno)]],
    ⟨⟨?_, fun z hz => ?_, fun z hz c hc => ?_⟩, ?_, ?_⟩, ?_⟩
  · have hrange := hpages.range p (hmem p (.inl hp))
    have hne₁ : p ≠ newNode := hapart p hp newNode (by simp)
    have hne₂ : p ≠ ih.fileHdr.rootPage := hapart p hp _ (by simp)
    rw [hnodes, growRootPages, Function.update_of_ne hne₁, Function.update_of_ne hne₂,
      Function.update_of_ne (by omega)]
  · rcases List.mem_cons.mp hc with rfl | hc
    · exact ⟨_, hnodeLeft⟩
    · obtain rfl := List.mem_singleton.mp hc
      exact ⟨_, hnodeRight⟩
  · rw [List.flatMap_singleton, hchildren]
    rfl
  · obtain rfl := List.mem_singleton.mp hz
    rw [hnodeRoot, hleaf]
  · obtain rfl := List.mem_singleton.mp hz
    rw [hchildren] at hc
    rcases List.mem_cons.mp hc with rfl | hc
    · rw [hnodeLeft]
    · obtain rfl := List.mem_singleton.mp hc
      rw [hnodeRight]
  · rw [hroot']
  · rw [hroot', hnodeRoot, hparent]
  · have hall := hpages.cons_createNode (by omega) hext
    refine hall.perm ?_
    have hcomm : ([ih.fd2pageno] ++ (below ++ [ih.fileHdr.rootPage, newNode])).Perm
        ((below ++ [ih.fileHdr.rootPage, newNode]) ++ [ih.fd2pageno]) := List.perm_append_comm
    simpa using hcomm

theorem children_congr (h : ih'.nodeAt x.2 = ih.nodeAt x.2) : ih'.children x = ih.children x := by
  unfold children
  rw [h]

theorem Linked.children_split (h : ih.Linked (l₁ ++ x :: l₂) up) : ∃ u₁ y u₂ c₁ c₂, up = u₁ ++ y :: u₂ ∧
    ih.children y = c₁ ++ x :: c₂ ∧ l₁ = u₁.flatMap ih.children ++ c₁ ∧ l₂ = c₂ ++ u₂.flatMap ih.children :=
  Levels.flatMap_eq_append_cons h.children.symm

omit [Inhabited K] in
/-- The search for the new key in the parent ends at the child that was split. -/
theorem lowerBound_eq_length [Std.TransCmp cmp] {node : IxNodeHandle K} {sep : Option K}
    {c₁ c₂ : List (Option K × ℤ)} (hchildren : node.children sep = c₁ ++ x :: c₂)
    (hsorted : SepSorted cmp (c₁ ++ x :: (some key, newNode) :: c₂)) : node.lowerBound cmp key = c₁.length := by
  have hold : SepSorted cmp (node.children sep) := by
    rw [hchildren]
    refine hsorted.sublist ?_
    exact ((List.Sublist.refl c₁).append ((List.sublist_cons_self _ _).cons_cons x)).map _
  have hlen : c₁.length + c₂.length = node.numKey := by
    have := congrArg List.length hchildren
    simp at this
    omega
  have htake : (node.children sep).take (c₁.length + 1) = c₁ ++ [x] := by
    rw [hchildren, List.take_length_add_append]
    rfl
  have hdrop : (node.children sep).drop (c₁.length + 1) = c₂ := by
    rw [hchildren, List.drop_length_add_append]
    rfl
  have hcount : (node.children sep).length = node.numKey + 1 := IxNodeHandle.length_children
  have hpair : (c₁ ++ x :: (some key, newNode) :: c₂).Pairwise fun a b => SepLt cmp a.1 b.1 := hsorted
  rw [show c₁ ++ x :: (some key, newNode) :: c₂ = (c₁ ++ [x]) ++ (some key, newNode) :: c₂ by simp,
    List.pairwise_append, List.pairwise_cons] at hpair
  obtain ⟨-, ⟨hright, -⟩, hleft⟩ := hpair
  refine (IxNodeHandle.SepSorted.sorted hold).lowerBound_eq (by omega) (fun i hi => ?_) fun i hi hn => ?_
  · -- the key `i` is the separator of a child up to `x`
    have hmem : node.child sep (i + 1) ∈ c₁ ++ [x] := by
      rw [← htake]
      exact List.mem_take_iff_getElem.mpr ⟨i + 1, by omega, IxNodeHandle.getElem_children _⟩
    obtain ⟨k, hk, hlt⟩ := hleft _ hmem _ List.mem_cons_self
    obtain rfl := Option.some.inj hk
    exact hlt _ rfl
  · have hmem : node.child sep (i + 1) ∈ c₂ := by
      rw [← hdrop]
      refine List.mem_drop_iff_getElem.mpr ⟨i - c₁.length, by omega, ?_⟩
      rw [IxNodeHandle.getElem_children]
      congr 1
      omega
    obtain ⟨k, hk, hlt⟩ := hright _ hmem
    obtain rfl := Option.some.inj hk
    have hgt := Std.OrientedCmp.gt_of_lt (hlt _ rfl)
    rw [hgt]
    exact nofun

omit [Inhabited K] in
theorem Pages.apart {level level' : List (Option K × ℤ)} (h : ih.Pages (below ++ (level ++ y :: level').map Prod.snd)) :
    (∀ p ∈ below, p ≠ y.2) ∧ (∀ z ∈ level, z.2 ≠ y.2) ∧ ∀ z ∈ level', z.2 ≠ y.2 := by
  have hnodup := h.nodup
  rw [List.map_append, List.map_cons, ← List.append_assoc, List.nodup_middle, List.nodup_cons] at hnodup
  have hnot := hnodup.1
  refine ⟨fun p hp heq => hnot ?_, fun z hz heq => hnot ?_, fun z hz heq => hnot ?_⟩
  · rw [← heq]
    exact List.mem_append_left _ (List.mem_append_left _ hp)
  · rw [← heq]
    exact List.mem_append_left _ (List.mem_append_right _ (List.mem_map_of_mem hz))
  · rw [← heq]
    exact List.mem_append_right _ (List.mem_map_of_mem hz)

/-- The parent of a child that was split, and the slot in it of the new key. -/
theorem Linked.lowerBound_parent [Std.TransCmp cmp] (h : ih.Linked (l₁ ++ x :: l₂) up)
    (hsorted : SepSorted cmp (l₁ ++ x :: (some key, newNode) :: l₂)) : ∃ u₁ y u₂ c₁ c₂, up = u₁ ++ y :: u₂ ∧
      ih.children y = c₁ ++ x :: c₂ ∧ l₁ = u₁.flatMap ih.children ++ c₁ ∧ l₂ = c₂ ++ u₂.flatMap ih.children ∧
      (ih.nodeAt y.2).lowerBound cmp key = c₁.length := by
  obtain ⟨u₁, y, u₂, c₁, c₂, hup, hchildren, hl₁, hl₂⟩ := h.children_split
  have hinner : (c₁ ++ x :: (some key, newNode) :: c₂).Sublist
      (c₁ ++ x :: (some key, newNode) :: (c₂ ++ u₂.flatMap ih.children)) :=
    (List.Sublist.refl c₁).append (((List.sublist_append_left _ _).cons_cons _).cons_cons _)
  have hsub : (c₁ ++ x :: (some key, newNode) :: c₂).Sublist (l₁ ++ x :: (some key, newNode) :: l₂) := by
    rw [hl₁, hl₂, List.append_assoc]
    exact hinner.trans (List.sublist_append_right _ _)
  exact ⟨u₁, y, u₂, c₁, c₂, hup, hchildren, hl₁, hl₂, lowerBound_eq_length hchildren (hsorted.sublist (hsub.map _))⟩

/-- The parent has taken up the new child. -/
theorem insertPair_above [Std.TransCmp cmp] (h : ih.Stacked (l₁ ++ x :: l₂) (up :: above))
    (hpages : ih.Pages (below ++ ((l₁ ++ x :: (some key, newNode) :: l₂) ++ (up :: above).flatten).map Prod.snd))
    (hparent : (ih.nodeAt newNode).parent = (ih.nodeAt x.2).parent)
    (hsorted : SepSorted cmp (l₁ ++ x :: (some key, newNode) :: l₂)) :
    ∃ y ∈ up, (ih.nodeAt x.2).parent = y.2 ∧ Ends IxError.Stops (fun node => node.pageNo = y.2 ∧ 0 < node.numKey ∧
        Keeps ih (ih.writeNode node) below (l₁ ++ x :: (some key, newNode) :: l₂) ∧
        Above (ih.writeNode node) below (l₁ ++ x :: (some key, newNode) :: l₂) (up :: above))
      ((ih.nodeAt y.2).insertPair ih.fileHdr ((ih.nodeAt y.2).lowerBound cmp key) key newNode) := by
  obtain ⟨hlinked, hstacked⟩ := h
  obtain ⟨u₁, y, u₂, c₁, c₂, rfl, hchildren, hl₁, hl₂, hlower⟩ := hlinked.lowerBound_parent hsorted
  have hy : y ∈ u₁ ++ y :: u₂ := by simp
  have hx : x ∈ ih.children y := by simp [hchildren]
  have hsplit : (l₁ ++ x :: (some key, newNode) :: l₂) ++ ((u₁ ++ y :: u₂) :: above).flatten =
      ((l₁ ++ x :: (some key, newNode) :: l₂) ++ u₁) ++ y :: (u₂ ++ above.flatten) := by simp
  have hypages := hpages.holds y.2 (by simp)
  have hpages' := hpages
  rw [hsplit] at hpages'
  obtain ⟨hbelow, hfront, hback⟩ := hpages'.apart
  have hleaf : (ih.nodeAt y.2).isLeaf = false := hlinked.isLeaf y hy
  refine ⟨y, hy, hlinked.parent y hy x hx, ?_⟩
  rw [hlower]
  refine insertPair_ends.mono fun node hnode => ?_
  obtain ⟨rid, hrid, hnode⟩ := hnode
  have hpage : node.pageNo = y.2 := by
    rw [hnode]
    exact hypages.pageNo
  have hsame : ∀ p, p ≠ y.2 → (ih.writeNode node).nodeAt p = ih.nodeAt p := by
    intro p hp
    rw [nodeAt_writeNode, hpage, Function.update_of_ne hp]
  have hself : (ih.writeNode node).nodeAt y.2 = node := by rw [nodeAt_writeNode, hpage, Function.update_self]
  have hchildren' : (ih.writeNode node).children y = c₁ ++ x :: (some key, newNode) :: c₂ := by
    unfold children
    rw [hself, hnode, ← hrid]
    exact IxNodeHandle.children_insertPair hchildren
  have hfirst : ∀ z ∈ u₁, (ih.writeNode node).children z = ih.children z := fun z hz =>
    children_congr (hsame _ (hfront z (List.mem_append_right _ hz)))
  have hlast : ∀ z ∈ u₂, (ih.writeNode node).children z = ih.children z := fun z hz =>
    children_congr (hsame _ (hback z (List.mem_append_left _ hz)))
  have hlow : l₁ ++ x :: (some key, newNode) :: l₂ = (u₁ ++ y :: u₂).flatMap (ih.writeNode node).children := by
    rw [List.flatMap_append, List.flatMap_cons, List.flatMap_congr hfirst, List.flatMap_congr hlast, hchildren', hl₁, hl₂]
    simp
  have hnodes : ∀ c ∈ l₁ ++ x :: (some key, newNode) :: l₂, (ih.writeNode node).nodeAt c.2 = ih.nodeAt c.2 :=
    fun c hc => hsame _ (hfront c (List.mem_append_left _ hc))
  refine ⟨hpage, by rw [hnode]; exact Nat.succ_pos _, ⟨extends_writeNode, fun p hp => hsame p (hbelow p hp),
    fun c hc => ⟨_, hnodes c hc⟩⟩, ⟨⟨hlow, fun z hz => ?_, fun z hz c hc => ?_⟩, ?_⟩, hpages.extends extends_writeNode⟩
  · by_cases hzy : z.2 = y.2
    · rw [hzy, hself, hnode]
      exact hleaf
    · rw [hsame _ hzy, hlinked.isLeaf z hz]
  · have hmem : c ∈ l₁ ++ x :: (some key, newNode) :: l₂ := by
      rw [hlow]
      exact List.mem_flatMap.mpr ⟨z, hz, hc⟩
    rw [hnodes c hmem]
    rcases List.mem_append.mp hz with hz₁ | hz₂
    · rw [hfirst z hz₁] at hc
      exact hlinked.parent z hz c hc
    · rcases List.mem_cons.mp hz₂ with rfl | hz₂
      · rw [hchildren'] at hc
        have hcases : c = (some key, newNode) ∨ c ∈ ih.children z := by
          rw [hchildren]
          simp only [List.mem_append, List.mem_cons] at hc ⊢
          tauto
        rcases hcases with rfl | hc
        · rw [hparent, hlinked.parent z hy x hx]
        · exact hlinked.parent z hy c hc
      · rw [hlast z hz₂] at hc
        exact hlinked.parent z hz c hc
  · refine hstacked.congr rfl (fun z hz => ?_) fun z hz => hsame _ (hback z (List.mem_append_right _ hz))
    by_cases hzy : z.2 = y.2
    · rw [hzy, hself, hnode]
    · rw [hsame _ hzy]

omit [Inhabited K] in
theorem exists_valueAt_iff {node : IxNodeHandle K} {sep : Option K} {p : ℤ} :
    (∃ i < node.numKey + 1, node.valueAt i = p) ↔ p ∈ (node.children sep).map Prod.snd := by
  constructor
  · rintro ⟨i, hi, rfl⟩
    obtain ⟨c, hc, hvalue⟩ := IxNodeHandle.exists_mem_children sep (Nat.le_of_lt_succ hi)
    exact List.mem_map.mpr ⟨c, hc, hvalue⟩
  · intro hp
    obtain ⟨c, hc, rfl⟩ := List.mem_map.mp hp
    obtain ⟨i, hi, hvalue⟩ := IxNodeHandle.mem_children hc
    exact ⟨i, by omega, hvalue.symm⟩

/-- The pages after a split of the internal node `y`: the children `rest` hang on a new page. -/
structure InternalSplit (ih ih' : IxIndexHandle K) (below : List ℤ) (low u₁ : List (Option K × ℤ)) (y : Option K × ℤ)
    (u₂ upper left rest : List (Option K × ℤ)) (newUp : Option K × ℤ) : Prop where
  newPage : newUp.2 = ih.fd2pageno
  pages : ih.Pages (below ++ ((low ++ u₁) ++ y :: (u₂ ++ upper)).map Prod.snd)
  halves : left ++ rest = ih.children y
  parts : low = u₁.flatMap ih.children ++ (left ++ (rest ++ u₂.flatMap ih.children))
  leftNode : ih'.nodeAt y.2 = { ih.nodeAt y.2 with numKey := (ih.nodeAt y.2).numKey / 2 }
  rightNode : (ih'.nodeAt newUp.2).isLeaf = false ∧ (ih'.nodeAt newUp.2).parent = (ih.nodeAt y.2).parent
  leftChildren : ih'.children y = left
  rightChildren : ih'.children newUp = rest
  moved : ∀ c ∈ rest, ih'.nodeAt c.2 = { ih.nodeAt c.2 with parent := newUp.2 }
  same : ∀ p, p ∉ rest.map Prod.snd → p ≠ y.2 → p ≠ newUp.2 → ih'.nodeAt p = ih.nodeAt p

namespace InternalSplit

variable {upper left rest : List (Option K × ℤ)} {newUp z c : Option K × ℤ} {p : ℤ}

section

variable (h : InternalSplit ih ih' below low u₁ y u₂ upper left rest newUp)
include h

theorem mem_low (hc : c ∈ rest) : c ∈ low := by
  rw [h.parts]
  simp [hc]

theorem ne_new (hp : p ∈ below ++ ((low ++ u₁) ++ y :: (u₂ ++ upper)).map Prod.snd) : p ≠ newUp.2 := by
  rw [h.newPage]
  exact Int.ne_of_lt (h.pages.range p hp).2

/-- A page that is not below the split node is not one that has moved. -/
theorem same_of_not_low (hp : p ∈ below ++ (u₁ ++ (u₂ ++ upper)).map Prod.snd) : ih'.nodeAt p = ih.nodeAt p := by
  have hperm : (below ++ ((low ++ u₁) ++ y :: (u₂ ++ upper)).map Prod.snd).Perm
      ((below ++ (u₁ ++ (u₂ ++ upper)).map Prod.snd) ++ (low ++ [y]).map Prod.snd) := by
    rw [List.perm_iff_count]
    intro q
    simp only [List.map_append, List.map_cons, List.map_nil, List.count_append, List.count_cons, List.count_nil]
    omega
  have hnodup := hperm.nodup h.pages.nodup
  have hapart := (List.nodup_append.mp hnodup).2.2 p hp
  refine h.same p (fun hmem => ?_) (hapart _ (by simp)) (h.ne_new (hperm.mem_iff.mpr (List.mem_append_left _ hp)))
  obtain ⟨c, hc, rfl⟩ := List.mem_map.mp hmem
  exact hapart _ (List.mem_map_of_mem (List.mem_append_left _ (h.mem_low hc))) rfl

theorem sides (hz : z ∈ u₁ ∨ z ∈ u₂) : ih'.nodeAt z.2 = ih.nodeAt z.2 := by
  refine h.same_of_not_low (List.mem_append_right _ (List.mem_map_of_mem ?_))
  rw [List.mem_append, List.mem_append]
  tauto

/-- A child is where it was, or it has moved. -/
theorem nodeAt_low (hc : c ∈ low) (hnot : c.2 ∉ rest.map Prod.snd) : ih'.nodeAt c.2 = ih.nodeAt c.2 := by
  obtain ⟨-, hfront, -⟩ := h.pages.apart
  refine h.same _ hnot (hfront c (List.mem_append_left _ hc)) (h.ne_new ?_)
  exact List.mem_append_right _ (List.mem_map_of_mem (by simp [hc]))

theorem kept (hc : c ∈ u₁.flatMap ih.children ∨ c ∈ left ∨ c ∈ u₂.flatMap ih.children) : ih'.nodeAt c.2 = ih.nodeAt c.2 := by
  have hmem : c ∈ low := by
    rw [h.parts]
    simp only [List.mem_append]
    tauto
  have hnodup : (low.map Prod.snd).Nodup := by
    have := h.pages.nodup
    rw [List.append_assoc, List.map_append] at this
    exact (List.nodup_append.mp (List.nodup_append.mp this).2.1).1
  rw [h.parts, List.map_append, List.map_append, List.map_append, List.nodup_append, List.nodup_append,
    List.nodup_append] at hnodup
  obtain ⟨-, ⟨-, ⟨-, -, hlast⟩, hleft⟩, hfirst⟩ := hnodup
  refine h.nodeAt_low hmem fun hmoved => ?_
  rcases hc with hc | hc | hc
  · exact hfirst _ (List.mem_map_of_mem hc) _ (List.mem_append_right _ (List.mem_append_left _ hmoved)) rfl
  · exact hleft _ (List.mem_map_of_mem hc) _ (List.mem_append_left _ hmoved) rfl
  · exact hlast _ hmoved _ (List.mem_map_of_mem hc) rfl

theorem keeps (hext : Extends ih ih') : Keeps ih ih' below low where
  ext := hext
  below p hp := h.same_of_not_low (List.mem_append_left _ hp)
  low c hc := by
    by_cases hmoved : c.2 ∈ rest.map Prod.snd
    · obtain ⟨c', hc', heq⟩ := List.mem_map.mp hmoved
      rw [← heq]
      exact ⟨_, h.moved c' hc'⟩
    · exact ⟨_, h.nodeAt_low hc hmoved⟩

/-- The level above has the new node between the two halves. -/
theorem linked (hlinked : ih.Linked low (u₁ ++ y :: u₂)) : ih'.Linked low (u₁ ++ y :: newUp :: u₂) := by
  have hy : y ∈ u₁ ++ y :: u₂ := by simp
  have hsides : ∀ z, z ∈ u₁ ∨ z ∈ u₂ → ih'.children z = ih.children z := fun z hz => children_congr (h.sides hz)
  have hfirst : ∀ z ∈ u₁, ih'.children z = ih.children z := fun z hz => hsides z (.inl hz)
  have hlast : ∀ z ∈ u₂, ih'.children z = ih.children z := fun z hz => hsides z (.inr hz)
  have hcases : ∀ z ∈ u₁ ++ y :: newUp :: u₂, (z ∈ u₁ ∨ z ∈ u₂) ∨ z = y ∨ z = newUp := by
    intro z hz
    simp only [List.mem_append, List.mem_cons] at hz
    tauto
  constructor
  · rw [List.flatMap_append, List.flatMap_cons, List.flatMap_cons, List.flatMap_congr hfirst, List.flatMap_congr hlast,
      h.leftChildren, h.rightChildren]
    exact h.parts
  · intro z hz
    rcases hcases z hz with hz | rfl | rfl
    · rw [h.sides hz]
      refine hlinked.isLeaf z ?_
      rw [List.mem_append, List.mem_cons]
      tauto
    · rw [h.leftNode]
      exact hlinked.isLeaf z hy
    · exact h.rightNode.1
  · intro z hz c hc
    rcases hcases z hz with hz | rfl | rfl
    · rw [hsides z hz] at hc
      have hmem : c ∈ u₁.flatMap ih.children ∨ c ∈ left ∨ c ∈ u₂.flatMap ih.children :=
        hz.imp (fun hz => List.mem_flatMap.mpr ⟨z, hz, hc⟩) fun hz => .inr (List.mem_flatMap.mpr ⟨z, hz, hc⟩)
      rw [h.kept hmem]
      refine hlinked.parent z ?_ c hc
      rw [List.mem_append, List.mem_cons]
      tauto
    · rw [h.leftChildren] at hc
      rw [h.kept (.inr (.inl hc)), hlinked.parent z hy c (by rw [← h.halves]; exact List.mem_append_left _ hc)]
    · rw [h.rightChildren] at hc
      rw [h.moved c hc]

omit h in
theorem stacked (h : InternalSplit ih ih' below low u₁ y u₂ above.flatten left rest newUp)
    (hstacked : ih.Stacked (u₁ ++ y :: u₂) above) (hroot : ih'.fileHdr.rootPage = ih.fileHdr.rootPage) :
    ih'.Stacked (u₁ ++ y :: u₂) above := by
  refine hstacked.congr hroot (fun z hz => ?_) fun z hz => ?_
  · rw [List.mem_append, List.mem_cons] at hz
    by_cases hzy : z = y
    · rw [hzy, h.leftNode]
    · rw [h.sides (by tauto)]
  · exact h.same_of_not_low (List.mem_append_right _ (List.mem_map_of_mem (by simp [hz])))

theorem pages_new (hext : Extends ih.createNode.2 ih') :
    ih'.Pages (below ++ (low ++ ((u₁ ++ y :: newUp :: u₂) ++ upper)).map Prod.snd) := by
  have hrange := h.pages.range y.2 (by simp)
  refine (h.pages.cons_createNode (Int.lt_trans hrange.1 hrange.2) hext).perm ?_
  have hmiddle : (newUp.2 :: ((below ++ (low ++ (u₁ ++ [y])).map Prod.snd) ++ (u₂ ++ upper).map Prod.snd)).Perm
      ((below ++ (low ++ (u₁ ++ [y])).map Prod.snd) ++ newUp.2 :: (u₂ ++ upper).map Prod.snd) := List.perm_middle.symm
  rw [← h.newPage]
  simpa using hmiddle

end

end InternalSplit

/-- What `split` makes of an internal node of the level. -/
theorem Linked.internalSplit {upper : List (Option K × ℤ)} {right : IxNodeHandle K} (hlinked : ih.Linked low (u₁ ++ y :: u₂))
    (hpages : ih.Pages (below ++ ((low ++ u₁) ++ y :: (u₂ ++ upper)).map Prod.snd)) (hnum : 0 < (ih.nodeAt y.2).numKey)
    (hpage : right.pageNo = ih.fd2pageno) (hright : RightInternal (ih.nodeAt y.2) right)
    (hnodes : ih'.nodeAt = ih.internalSplitPages (ih.nodeAt y.2) right) :
    ∃ left rest, InternalSplit ih ih' below low u₁ y u₂ upper left rest
      (some ((ih.nodeAt y.2).keys ((ih.nodeAt y.2).numKey / 2)), ih.fd2pageno) := by
  obtain ⟨-, hfront, -⟩ := hpages.apart
  have hynew := Int.ne_of_lt (hpages.range y.2 (by simp)).2
  obtain ⟨leftNode, hleftNode⟩ : ∃ leftNode : IxNodeHandle K,
      leftNode = { ih.nodeAt y.2 with numKey := (ih.nodeAt y.2).numKey / 2 } := ⟨_, rfl⟩
  obtain ⟨left, hleft⟩ : ∃ left, left = leftNode.children y.1 := ⟨_, rfl⟩
  obtain ⟨rest, hrest⟩ : ∃ rest, rest =
      right.children (some ((ih.nodeAt y.2).keys ((ih.nodeAt y.2).numKey / 2))) := ⟨_, rfl⟩
  have hhalves : left ++ rest = ih.children y := by
    rw [hleft, hrest, hleftNode]
    exact IxNodeHandle.children_split hright hnum
  have hparts : low = u₁.flatMap ih.children ++ (left ++ (rest ++ u₂.flatMap ih.children)) := by
    rw [hlinked.children, List.flatMap_append, List.flatMap_cons, ← hhalves, List.append_assoc]
  have hlow : ∀ c ∈ rest, c.2 ≠ y.2 ∧ c.2 ≠ ih.fd2pageno := by
    intro c hc
    have hmem : c ∈ low := by
      rw [hparts]
      simp [hc]
    refine ⟨hfront c (List.mem_append_left _ hmem), Int.ne_of_lt (hpages.range c.2 ?_).2⟩
    exact List.mem_append_right _ (List.mem_map_of_mem (by simp [hmem]))
  have hnodeAt : ∀ p, ih'.nodeAt p =
      if p ∈ rest.map Prod.snd then
        { Function.update (Function.update ih.nodeAt ih.fd2pageno right) y.2 leftNode p with parent := ih.fd2pageno }
      else Function.update (Function.update ih.nodeAt ih.fd2pageno right) y.2 leftNode p := by
    intro p
    rw [hnodes, internalSplitPages, ← hleftNode, hpage, (hpages.holds y.2 (by simp)).pageNo, hrest]
    exact if_congr exists_valueAt_iff rfl rfl
  have hnodeY : ih'.nodeAt y.2 = leftNode := by
    rw [hnodeAt, if_neg, Function.update_self]
    intro hmem
    obtain ⟨c, hc, heq⟩ := List.mem_map.mp hmem
    exact (hlow c hc).1 heq
  have hnodeNew : ih'.nodeAt ih.fd2pageno = right := by
    rw [hnodeAt, if_neg, Function.update_of_ne hynew.symm, Function.update_self]
    intro hmem
    obtain ⟨c, hc, heq⟩ := List.mem_map.mp hmem
    exact (hlow c hc).2 heq
  refine ⟨left, rest, rfl, hpages, hhalves, hparts, hnodeY.trans hleftNode, ?_, ?_, ?_, fun c hc => ?_,
    fun p hp hpy hpnew => ?_⟩
  · rw [hnodeNew]
    exact ⟨hright.isLeaf, hright.parent⟩
  · rw [IxIndexHandle.children, hnodeY, hleft]
  · rw [IxIndexHandle.children, hnodeNew, hrest]
  · rw [hnodeAt, if_pos (List.mem_map_of_mem hc), Function.update_of_ne (hlow c hc).1, Function.update_of_ne (hlow c hc).2]
  · rw [hnodeAt, if_neg hp, Function.update_of_ne hpy, Function.update_of_ne hpnew]

/-- An internal node has been split; the level above does not know yet. -/
theorem split_above (h : Above ih below low ((u₁ ++ y :: u₂) :: above)) (hnum : 0 < (ih.nodeAt y.2).numKey) :
    Ends IxError.Stops (fun r => ∃ up', up' = u₁ ++ y :: (some ((ih.nodeAt y.2).keys ((ih.nodeAt y.2).numKey / 2)), r.1) :: u₂ ∧
        Keeps ih r.2 below low ∧ r.2.Linked low up' ∧ r.2.Stacked (u₁ ++ y :: u₂) above ∧
        (r.2.nodeAt r.1).parent = (r.2.nodeAt y.2).parent ∧
        r.2.Pages (below ++ (low ++ (up' ++ above.flatten)).map Prod.snd))
      (ih.split y.2) := by
  obtain ⟨⟨hlinked, hstacked⟩, hpages⟩ := h
  have hsplit : low ++ ((u₁ ++ y :: u₂) :: above).flatten = (low ++ u₁) ++ y :: (u₂ ++ above.flatten) := by simp
  rw [hsplit] at hpages
  have hy : y ∈ u₁ ++ y :: u₂ := by simp
  have hchild : ∀ i ≤ (ih.nodeAt y.2).numKey,
      ih.Holds ((ih.nodeAt y.2).valueAt i) ∧ (ih.nodeAt y.2).valueAt i ≠ ih.fd2pageno := by
    intro i hi
    obtain ⟨c, hc, hvalue⟩ := IxNodeHandle.exists_mem_children y.1 hi
    have hlow : c ∈ low := by
      rw [hlinked.children]
      exact List.mem_flatMap.mpr ⟨y, hy, hc⟩
    have hmem : c.2 ∈ below ++ ((low ++ u₁) ++ y :: (u₂ ++ above.flatten)).map Prod.snd :=
      List.mem_append_right _ (List.mem_map_of_mem (by simp [hlow]))
    rw [← hvalue]
    exact ⟨hpages.holds _ hmem, Int.ne_of_lt (hpages.range _ hmem).2⟩
  have hyrange := hpages.range y.2 (by simp)
  refine (split_internal_ends (hpages.holds y.2 (by simp)) (Int.ne_of_lt hyrange.2) (hlinked.isLeaf y hy) hnum
    hchild).mono fun r hr => ?_
  obtain ⟨hnew, hext, hroot, right, hpage, hright, hnodes⟩ := hr
  obtain ⟨left, rest, hs⟩ := hlinked.internalSplit hpages hnum hpage hright hnodes
  rw [hnew]
  refine ⟨_, rfl, hs.keeps (extends_createNode.trans hext), hs.linked hlinked, hs.stacked hstacked hroot, ?_,
    hs.pages_new hext⟩
  rw [hs.rightNode.2, hs.leftNode]

/-- A level under levels that are complete, when the calls above have kept its own pages. -/
theorem Above.push (h : ih.Linked low up) (hk : Keeps ih ih' (below ++ low.map Prod.snd) up)
    (ha : Above ih' (below ++ low.map Prod.snd) up above) : Above ih' below low (up :: above) := by
  refine ⟨⟨h.congr (fun x hx => ?_) fun c hc => ?_, ha.stacked⟩, ?_⟩
  · obtain ⟨parent, hparent⟩ := hk.low x hx
    unfold children
    rw [hparent]
    exact ⟨children_of_parent parent, rfl⟩
  · rw [hk.below c.2 (List.mem_append_right _ (List.mem_map_of_mem hc))]
  · have := ha.pages
    simpa using this

theorem Keeps.of_push (h : Keeps ih ih' (below ++ low.map Prod.snd) up) : Keeps ih ih' below low where
  ext := h.ext
  below p hp := h.below p (List.mem_append_left _ hp)
  low c hc := ⟨_, h.below c.2 (List.mem_append_right _ (List.mem_map_of_mem hc))⟩

/-- `insert_into_parent` puts the levels above `low` in order. -/
theorem insertIntoParent_above [Std.TransCmp cmp] {fuel : ℕ} (hfuel : above.length < fuel)
    (h : ih.Stacked (l₁ ++ x :: l₂) above)
    (hpages : ih.Pages (below ++ ((l₁ ++ x :: (some key, newNode) :: l₂) ++ above.flatten).map Prod.snd))
    (hparent : (ih.nodeAt newNode).parent = (ih.nodeAt x.2).parent)
    (hsorted : SepSorted cmp (l₁ ++ x :: (some key, newNode) :: l₂)) :
    Ends IxError.Stops (fun ih' => Keeps ih ih' below (l₁ ++ x :: (some key, newNode) :: l₂) ∧
        ∃ above', Above ih' below (l₁ ++ x :: (some key, newNode) :: l₂) above')
      (insertIntoParent cmp fuel ih x.2 key newNode) := by
  induction above generalizing fuel ih l₁ x l₂ key newNode below with
  | nil =>
    obtain ⟨fuel, rfl⟩ := Nat.exists_eq_succ_of_ne_zero (Nat.ne_of_gt hfuel)
    rw [List.flatten_nil, List.append_nil] at hpages
    obtain ⟨hroot, ih', hgrow, hkeeps, habove⟩ := growRoot_above h hpages
    unfold insertIntoParent
    rw [(hpages.holds x.2 (by simp)).fetchNode]
    change Ends _ _ (if (ih.nodeAt x.2).isRootPage then ih.growRoot x.2 key newNode else _)
    rw [if_pos hroot, hgrow]
    exact ⟨hkeeps, habove⟩
  | cons up above hrec =>
    obtain ⟨fuel, rfl⟩ := Nat.exists_eq_succ_of_ne_zero (Nat.ne_of_gt (Nat.zero_lt_of_lt hfuel))
    obtain ⟨y, hy, hxy, hinsert⟩ := insertPair_above h hpages hparent hsorted
    have hymem : y.2 ∈ below ++ ((l₁ ++ x :: (some key, newNode) :: l₂) ++ (up :: above).flatten).map Prod.snd := by
      refine List.mem_append_right _ (List.mem_map_of_mem (List.mem_append_right _ ?_))
      rw [List.flatten_cons]
      exact List.mem_append_left _ hy
    have hnotRoot : ¬(ih.nodeAt x.2).isRootPage := by
      intro hroot
      have hpos := (hpages.range y.2 hymem).1
      rw [← hxy, show (ih.nodeAt x.2).parent = ixNoPage from hroot] at hpos
      exact absurd hpos (by decide)
    unfold insertIntoParent
    rw [(hpages.holds x.2 (by simp)).fetchNode]
    change Ends _ _ (if (ih.nodeAt x.2).isRootPage then _ else ih.fetchNode (ih.nodeAt x.2).parent >>= fun _ => _)
    rw [if_neg hnotRoot, hxy, (hpages.holds y.2 hymem).fetchNode]
    refine hinsert.bind fun node hnode => ?_
    obtain ⟨hpage, hnum, hkeeps, habove⟩ := hnode
    change Ends _ _ (if node.numKey = ih.fileHdr.maxSize then (ih.writeNode node).split node.pageNo >>= fun _ => _ else _)
    split
    · -- the parent is full
      obtain ⟨u₁, u₂, rfl⟩ := List.append_of_mem hy
      have hself : (ih.writeNode node).nodeAt y.2 = node := by rw [nodeAt_writeNode, hpage, Function.update_self]
      have hsplit := split_above habove (by rw [hself]; exact hnum)
      rw [hself] at hsplit
      rw [hpage]
      refine hsplit.bind fun r hr => ?_
      obtain ⟨up', hup', hkeeps', hlinked, hstacked, hparent', hpages'⟩ := hr
      subst hup'
      have hsorted' : SepSorted cmp (u₁ ++ y :: (some (node.keys (node.numKey / 2)), r.1) :: u₂) := by
        rw [hlinked.children] at hsorted
        exact SepSorted.parents hsorted r.2.children_head
      have hpages'' : r.2.Pages ((below ++ (l₁ ++ x :: (some key, newNode) :: l₂).map Prod.snd) ++
          ((u₁ ++ y :: (some (node.keys (node.numKey / 2)), r.1) :: u₂) ++ above.flatten).map Prod.snd) := by
        simpa using hpages'
      refine Ends.mono (hrec (Nat.lt_of_succ_lt_succ hfuel) hstacked hpages'' hparent' hsorted') fun ih' h' => ?_
      obtain ⟨hk, above', ha⟩ := h'
      exact ⟨hkeeps.trans (hkeeps'.trans hk.of_push), _, ha.push hlinked hk⟩
    · exact ⟨hkeeps, _, habove⟩

end IxIndexHandle
end Rmdb
