import Rmdb.Index.LeafChain
import Rmdb.Index.Pages
import Rmdb.Lib.Levels

/-! A tree as the list of its levels. A page stands in its level together with the separator on its left,
so that the separators of a level can be compared across the borders of its nodes. -/
namespace Rmdb

open SlotArray Program

variable {K : Type}

/-- The slot `i` of an internal node whose own left separator is `sep`. -/
def IxNodeHandle.child (node : IxNodeHandle K) (sep : Option K) : ℕ → Option K × ℤ
  | 0 => (sep, node.valueAt 0)
  | i + 1 => (some (node.keys i), node.valueAt (i + 1))

def IxNodeHandle.children (node : IxNodeHandle K) (sep : Option K) : List (Option K × ℤ) :=
  toList (node.child sep) (node.numKey + 1)

section separators
variable (cmp : K → K → Ordering)

/-- The right one of two separators is there and above the left one. -/
def SepLt (a b : Option K) : Prop := ∃ k, b = some k ∧ ∀ j ∈ a, cmp j k = .lt

def SepSorted (level : List (Option K × ℤ)) : Prop := level.Pairwise fun x y => SepLt cmp x.1 y.1

/-- The page of a level that a search for `key` goes through. -/
def Routes (key : K) (level : List (Option K × ℤ)) (x : Option K × ℤ) : Prop :=
  ∃ pre post, level = pre ++ x :: post ∧ (∀ y ∈ pre ++ [x], ∀ k ∈ y.1, cmp k key = .lt) ∧
    ∀ y ∈ post, ∃ k, y.1 = some k ∧ cmp k key ≠ .lt

end separators

namespace IxNodeHandle

variable {cmp : K → K → Ordering} {node right : IxNodeHandle K} {sep : Option K} {x : Option K × ℤ}
  {c₁ c₂ : List (Option K × ℤ)}

@[simp] theorem length_children : (node.children sep).length = node.numKey + 1 := length_toList ..

theorem getElem_children {i : ℕ} (hi : i < (node.children sep).length) : (node.children sep)[i] = node.child sep i :=
  getElem_toList ..

theorem children_eq_cons (sep : Option K) : ∃ rest, node.children sep = (sep, node.valueAt 0) :: rest := by
  unfold children toList
  rw [List.range_succ_eq_map, List.map_cons]
  exact ⟨_, rfl⟩

theorem mem_children : x ∈ node.children sep → ∃ i ≤ node.numKey, x.2 = node.valueAt i := by
  intro hx
  obtain ⟨i, hi, rfl⟩ := mem_toList.mp hx
  refine ⟨i, by omega, ?_⟩
  cases i <;> rfl

theorem exists_mem_children (sep : Option K) {i : ℕ} (hi : i ≤ node.numKey) : ∃ x ∈ node.children sep, x.2 = node.valueAt i := by
  refine ⟨node.child sep i, mem_toList.mpr ⟨i, by omega, rfl⟩, ?_⟩
  cases i <;> rfl

theorem SepSorted.sorted (h : SepSorted cmp (node.children sep)) : Sorted cmp node.keys node.numKey := by
  intro i j hij hj
  have hpair := List.pairwise_iff_getElem.mp h (i + 1) (j + 1) (by simp; omega) (by simp; omega) (by omega)
  rw [getElem_children, getElem_children] at hpair
  obtain ⟨k, hk, hlt⟩ := hpair
  obtain rfl := Option.some.inj hk
  exact hlt _ rfl

/-- A new key and the child on its right stand right behind the child that was split. -/
theorem children_insertPair {key : K} {rid : Rid} (hsplit : node.children sep = c₁ ++ x :: c₂) :
    ({ node with
      keys := insertAt node.keys node.numKey c₁.length key
      rids := insertAt node.rids (node.numKey + 1) (c₁.length + 1) rid
      numKey := node.numKey + 1 } : IxNodeHandle K).children sep = c₁ ++ x :: (some key, rid.pageNo) :: c₂ := by
  have hinsert := toList_insertAt_append (some key, rid.pageNo)
    (show toList (node.child sep) (node.numKey + 1) = (c₁ ++ [x]) ++ c₂ by rw [← children, hsplit]; simp)
  rw [List.append_assoc, List.singleton_append, List.length_append, List.length_singleton] at hinsert
  rw [← hinsert]
  unfold children
  apply List.ext_getElem
  · simp
  · intro i hi _
    rw [length_toList] at hi
    dsimp only at hi
    rw [getElem_toList, getElem_toList]
    cases i with
    | zero =>
      simp [child, valueAt, insertAt]
    | succ i =>
      simp only [child, valueAt, insertAt]
      split_ifs <;> first
        | rfl
        | omega
        | skip
      · obtain ⟨j, rfl⟩ : ∃ j, i = j + 1 := ⟨i - 1, by omega⟩
        rfl

/-- The two halves of a full internal node have its children. -/
theorem children_split (hright : IxIndexHandle.RightInternal node right) (hnum : 0 < node.numKey) :
    ({ node with numKey := node.numKey / 2 } : IxNodeHandle K).children sep ++
      right.children (some (node.keys (node.numKey / 2))) = node.children sep := by
  have hnumKey := hright.numKey
  apply List.ext_getElem
  · simp
    omega
  · intro i hi _
    rw [List.length_append, length_children, length_children] at hi
    dsimp only at hi
    by_cases hlow : i < node.numKey / 2 + 1
    · rw [List.getElem_append_left (by simpa using hlow), getElem_children, getElem_children]
      cases i <;> rfl
    · rw [List.getElem_append_right (by simpa using hlow), getElem_children, getElem_children]
      simp only [length_children]
      obtain ⟨j, rfl⟩ : ∃ j, i = node.numKey / 2 + 1 + j := ⟨i - (node.numKey / 2 + 1), by omega⟩
      rw [Nat.add_sub_cancel_left]
      have hrid := hright.rids j (by omega)
      rw [show node.numKey / 2 + 1 + j = (node.numKey / 2 + j) + 1 by omega] at hrid ⊢
      cases j with
      | zero => simp only [child, valueAt, hrid, Nat.add_zero]
      | succ j =>
        have hkey := hright.keys j (by omega)
        simp only [child, valueAt, hrid, hkey]
        rw [show node.numKey / 2 + 1 + j = node.numKey / 2 + (j + 1) by omega]

end IxNodeHandle

namespace SepSorted

variable {cmp : K → K → Ordering} {level low up : List (Option K × ℤ)} {children : Option K × ℤ → List (Option K × ℤ)}

theorem sublist {level' : List (Option K × ℤ)} (h : SepSorted cmp level)
    (hsub : (level'.map Prod.fst).Sublist (level.map Prod.fst)) : SepSorted cmp level' := by
  have := (List.pairwise_map.mpr h).sublist hsub
  exact List.pairwise_map.mp this

/-- The separators of a level come back in the level below it. -/
theorem sublist_flatMap (hhead : ∀ x, ∃ p rest, children x = (x.1, p) :: rest) (up : List (Option K × ℤ)) :
    (up.map Prod.fst).Sublist ((up.flatMap children).map Prod.fst) := by
  induction up with
  | nil => exact .slnil
  | cons x up ih =>
    obtain ⟨p, rest, hx⟩ := hhead x
    rw [List.flatMap_cons, List.map_append, hx, List.map_cons, List.map_cons, List.cons_append]
    exact (ih.trans (List.sublist_append_right _ _)).cons_cons _

theorem parents (h : SepSorted cmp (up.flatMap children)) (hhead : ∀ x, ∃ p rest, children x = (x.1, p) :: rest) :
    SepSorted cmp up :=
  h.sublist (sublist_flatMap hhead up)

variable [Std.TransCmp cmp] {key : K}

/-- A search goes on in the child at the lower bound of the key. -/
theorem routes (h : SepSorted cmp (up.flatMap children)) (hhead : ∀ x, ∃ p rest, children x = (x.1, p) :: rest)
    {x c : Option K × ℤ} {c₁ c₂ : List (Option K × ℤ)} (hx : Routes cmp key up x) (hc : children x = c₁ ++ c :: c₂)
    (hbelow : ∀ y ∈ (c₁ ++ [c]).tail, ∀ k ∈ y.1, cmp k key = .lt)
    (habove : ∀ y ∈ c₂, ∃ k, y.1 = some k ∧ cmp k key ≠ .lt) : Routes cmp key (up.flatMap children) c := by
  obtain ⟨pre, post, rfl, hpre, hpost⟩ := hx
  obtain ⟨p, rest, hcons⟩ := hhead x
  have hsorted := h
  rw [List.flatMap_append, List.flatMap_cons, SepSorted, List.pairwise_append, List.pairwise_append] at hsorted
  obtain ⟨-, ⟨-, hpost', -⟩, hpre'⟩ := hsorted
  refine ⟨pre.flatMap children ++ c₁, c₂ ++ post.flatMap children, ?_, ?_, ?_⟩
  · rw [List.flatMap_append, List.flatMap_cons, hc]
    simp
  · -- what stands before the children of `x` is below the separator of `x`
    intro y hy k hk
    rw [List.append_assoc, List.mem_append] at hy
    cases hy with
    | inl hy =>
      have hx := hpre' y hy (x.1, p) (by rw [hcons]; simp)
      obtain ⟨kx, hkx, hlt⟩ := hx
      exact Std.TransCmp.lt_trans (hlt k hk) (hpre x (by simp) kx hkx)
    | inr hy =>
      have hfirst : ∃ rest', c₁ ++ [c] = (x.1, p) :: rest' := by
        cases c₁ with
        | nil =>
          rw [hcons, List.nil_append, List.cons.injEq] at hc
          exact ⟨[], by rw [← hc.1, List.nil_append]⟩
        | cons b c₁ =>
          rw [hcons, List.cons_append, List.cons.injEq] at hc
          exact ⟨c₁ ++ [c], by rw [← hc.1, List.cons_append]⟩
      obtain ⟨rest', hrest'⟩ := hfirst
      rw [hrest', List.mem_cons] at hy
      cases hy with
      | inl hy =>
        subst hy
        exact hpre x (by simp) k hk
      | inr hy => exact hbelow y (by rw [hrest']; exact hy) k hk
  · intro y hy
    rw [List.mem_append] at hy
    cases hy with
    | inl hy => exact habove y hy
    | inr hy =>
      -- the children of a later node are not below its separator
      obtain ⟨z, hz, hyz⟩ := List.mem_flatMap.mp hy
      obtain ⟨kz, hkz, hge⟩ := hpost z hz
      obtain ⟨q, rest', hz'⟩ := hhead z
      have hchildren : SepSorted cmp (children z) := by
        have := (List.pairwise_flatMap.mp h).1 z (by simp [hz])
        exact this
      rw [hz'] at hyz hchildren
      cases List.mem_cons.mp hyz with
      | inl hyz =>
        subst hyz
        exact ⟨kz, hkz, hge⟩
      | inr hyz =>
        obtain ⟨ky, hky, hlt⟩ := (List.pairwise_cons.mp hchildren).1 y hyz
        refine ⟨ky, hky, fun hbelow => hge ?_⟩
        exact Std.TransCmp.lt_trans (hlt kz hkz) hbelow

end SepSorted

namespace IxIndexHandle

variable [Inhabited K] {cmp : K → K → Ordering} {ih ih' : IxIndexHandle K} {low up : List (Option K × ℤ)}
  {above : List (List (Option K × ℤ))} {x : Option K × ℤ} {pages pages' : List ℤ}

def children (ih : IxIndexHandle K) (x : Option K × ℤ) : List (Option K × ℤ) := (ih.nodeAt x.2).children x.1

theorem children_head (ih : IxIndexHandle K) (x : Option K × ℤ) : ∃ p rest, ih.children x = (x.1, p) :: rest := by
  obtain ⟨rest, h⟩ := (ih.nodeAt x.2).children_eq_cons x.1
  exact ⟨_, rest, h⟩

/-- A level of internal nodes and the level of their children. -/
structure Linked (ih : IxIndexHandle K) (low up : List (Option K × ℤ)) : Prop where
  children : low = up.flatMap ih.children
  isLeaf : ∀ x ∈ up, (ih.nodeAt x.2).isLeaf = false
  parent : ∀ x ∈ up, ∀ c ∈ ih.children x, (ih.nodeAt c.2).parent = x.2

/-- The levels of a tree from some level up to the root. -/
def Stacked (ih : IxIndexHandle K) : List (Option K × ℤ) → List (List (Option K × ℤ)) → Prop
  | low, [] => low = [(none, ih.fileHdr.rootPage)] ∧ (ih.nodeAt ih.fileHdr.rootPage).parent = ixNoPage
  | low, up :: above => ih.Linked low up ∧ Stacked ih up above

/-- Different pages of the file. -/
structure Pages (ih : IxIndexHandle K) (pages : List ℤ) : Prop where
  nodup : pages.Nodup
  holds : ∀ p ∈ pages, ih.Holds p
  range : ∀ p ∈ pages, 0 < p ∧ p < ih.fd2pageno

omit [Inhabited K] in
theorem Pages.perm (h : ih.Pages pages) (hp : pages.Perm pages') : ih.Pages pages' where
  nodup := hp.nodup h.nodup
  holds p hmem := h.holds p (hp.mem_iff.mpr hmem)
  range p hmem := h.range p (hp.mem_iff.mpr hmem)

omit [Inhabited K] in
theorem Pages.extends (h : ih.Pages pages) (hext : Extends ih ih') : ih'.Pages pages where
  nodup := h.nodup
  holds p hmem := hext.holds p (h.holds p hmem)
  range p hmem := ⟨(h.range p hmem).1, Int.lt_of_lt_of_le (h.range p hmem).2 hext.fd2pageno⟩

/-- A new page goes along with the old ones. -/
theorem Pages.cons_createNode (h : ih.Pages pages) (hpos : 0 < ih.fd2pageno) (hext : Extends ih.createNode.2 ih') :
    ih'.Pages (ih.fd2pageno :: pages) := by
  have hold := h.extends (extends_createNode.trans hext)
  have hlt : ih.fd2pageno < ih'.fd2pageno := Int.lt_of_lt_of_le (Int.lt_succ _) hext.fd2pageno
  refine ⟨List.nodup_cons.mpr ⟨fun hmem => ?_, h.nodup⟩, ?_, ?_⟩
  · exact Int.lt_irrefl _ (h.range _ hmem).2
  · intro p hp
    cases List.mem_cons.mp hp with
    | inl hp => exact hp ▸ hext.holds _ holds_createNode
    | inr hp => exact hold.holds p hp
  · intro p hp
    cases List.mem_cons.mp hp with
    | inl hp => exact hp ▸ ⟨hpos, hlt⟩
    | inr hp => exact hold.range p hp

theorem Linked.congr (h : ih.Linked low up) (hup : ∀ x ∈ up, ih'.children x = ih.children x ∧
      (ih'.nodeAt x.2).isLeaf = (ih.nodeAt x.2).isLeaf)
    (hlow : ∀ c ∈ low, (ih'.nodeAt c.2).parent = (ih.nodeAt c.2).parent) : ih'.Linked low up where
  children := by
    rw [h.children]
    exact List.flatMap_congr fun x hx => ((hup x hx).1).symm
  isLeaf x hx := by rw [(hup x hx).2, h.isLeaf x hx]
  parent x hx c hc := by
    rw [(hup x hx).1] at hc
    rw [hlow c, h.parent x hx c hc]
    rw [h.children]
    exact List.mem_flatMap.mpr ⟨x, hx, hc⟩

/-- The levels above do not look at more than the parents in the lowest level. -/
theorem Stacked.congr (h : ih.Stacked low above) (hroot : ih'.fileHdr.rootPage = ih.fileHdr.rootPage)
    (hlow : ∀ c ∈ low, (ih'.nodeAt c.2).parent = (ih.nodeAt c.2).parent)
    (habove : ∀ x ∈ above.flatten, ih'.nodeAt x.2 = ih.nodeAt x.2) : ih'.Stacked low above := by
  induction above generalizing low with
  | nil =>
    obtain ⟨rfl, hparent⟩ := h
    have hsame := hlow (none, ih.fileHdr.rootPage) (List.mem_singleton_self _)
    exact ⟨by rw [hroot], by rw [hroot, ← hparent]; exact hsame⟩
  | cons up above hrec =>
    obtain ⟨hlinked, hstacked⟩ := h
    have hup : ∀ x ∈ up, ih'.nodeAt x.2 = ih.nodeAt x.2 := fun x hx => habove x (by simp [hx])
    refine ⟨hlinked.congr (fun x hx => ?_) hlow, hrec hstacked (fun x hx => by rw [hup x hx]) fun x hx =>
      habove x (by rw [List.flatten_cons, List.mem_append]; exact .inr hx)⟩
    unfold children
    rw [hup x hx]
    exact ⟨rfl, rfl⟩

section routing
variable [Std.TransCmp cmp] {key : K}

/-- The search goes down one level. -/
theorem Linked.routes (h : ih.Linked low up) (hsorted : SepSorted cmp low) (hx : Routes cmp key up x)
    (hheld : ih.Holds x.2) : ∃ c, Routes cmp key low c ∧ c ∈ ih.children x ∧ ∀ fuel,
      ih.findLeafFrom cmp key (fuel + 1) x.2 = ih.findLeafFrom cmp key fuel c.2 := by
  have hmem : x ∈ up := by
    obtain ⟨pre, post, rfl, -⟩ := hx
    simp
  have hlow : SepSorted cmp (up.flatMap ih.children) := h.children ▸ hsorted
  have hchildren : SepSorted cmp (ih.children x) := (List.pairwise_flatMap.mp hlow).1 x hmem
  have hkeys : Sorted cmp (ih.nodeAt x.2).keys (ih.nodeAt x.2).numKey := IxNodeHandle.SepSorted.sorted hchildren
  have hle : (ih.nodeAt x.2).lowerBound cmp key ≤ (ih.nodeAt x.2).numKey := hkeys.lowerBound_le key
  have hlen : (ih.nodeAt x.2).lowerBound cmp key < (ih.children x).length := by
    unfold IxIndexHandle.children
    rw [IxNodeHandle.length_children]
    omega
  obtain ⟨c, hc⟩ : ∃ c, c = (ih.children x)[(ih.nodeAt x.2).lowerBound cmp key] := ⟨_, rfl⟩
  have hsplit : ih.children x = (ih.children x).take ((ih.nodeAt x.2).lowerBound cmp key) ++
      c :: (ih.children x).drop ((ih.nodeAt x.2).lowerBound cmp key + 1) := by
    rw [hc, ← List.drop_eq_getElem_cons, List.take_append_drop]
  have hslot : ∀ j (hj : j < (ih.children x).length), (ih.children x)[j] = (ih.nodeAt x.2).child x.1 j :=
    fun j hj => IxNodeHandle.getElem_children hj
  refine ⟨c, ?_, by rw [hc]; exact List.getElem_mem hlen, fun fuel => ?_⟩
  · rw [h.children]
    refine hlow.routes ih.children_head hx hsplit ?_ ?_
    · intro y hy k hk
      rw [hc, List.take_append_getElem] at hy
      obtain ⟨j, hj, rfl⟩ := List.getElem_of_mem hy
      rw [List.length_tail, List.length_take] at hj
      rw [List.getElem_tail, List.getElem_take, hslot] at hk
      obtain rfl := Option.some.inj hk
      have hlt : j < (ih.nodeAt x.2).lowerBound cmp key := by omega
      exact hkeys.lt_of_lt_lowerBound hlt
    · intro y hy
      obtain ⟨j, hj, rfl⟩ := List.mem_drop_iff_getElem.mp hy
      have hcount : (ih.children x).length = (ih.nodeAt x.2).numKey + 1 := IxNodeHandle.length_children
      rw [hslot, show (ih.nodeAt x.2).lowerBound cmp key + 1 + j = (ih.nodeAt x.2).lowerBound cmp key + j + 1 by omega]
      exact ⟨_, rfl, hkeys.not_lt_of_lowerBound_le (Nat.le_add_right _ _) (by omega)⟩
  · have hvalue : (ih.nodeAt x.2).valueAt ((ih.nodeAt x.2).lowerBound cmp key) = c.2 := by
      rw [hc, hslot]
      cases (ih.nodeAt x.2).lowerBound cmp key <;> rfl
    have hleaf := h.isLeaf x hmem
    conv_lhs => unfold findLeafFrom
    rw [hheld.fetchNode]
    change (if (ih.nodeAt x.2).isLeaf = true then _ else (ih.nodeAt x.2).internalLookup cmp key >>= fun _ => _) = _
    rw [hleaf, if_neg Bool.false_ne_true]
    unfold IxNodeHandle.internalLookup
    rw [assertThat_of hleaf]
    change findLeafFrom cmp ih key fuel ((ih.nodeAt x.2).valueAt _) = _
    rw [hvalue]

/-- Every search ends in one page of the lowest level. -/
theorem Stacked.routes (h : ih.Stacked low above) (hsorted : SepSorted cmp low)
    (hheld : ∀ y ∈ above.flatten, ih.Holds y.2) (key : K) : ∃ x, Routes cmp key low x ∧ ∀ fuel,
      ih.findLeafFrom cmp key (fuel + above.length) ih.fileHdr.rootPage = ih.findLeafFrom cmp key fuel x.2 := by
  induction above generalizing low with
  | nil =>
    obtain ⟨rfl, -⟩ := h
    exact ⟨_, ⟨[], [], rfl, fun y hy k hk => by simp_all, nofun⟩, fun _ => rfl⟩
  | cons up above hrec =>
    obtain ⟨hlinked, hstacked⟩ := h
    have hlow : SepSorted cmp (up.flatMap ih.children) := hlinked.children ▸ hsorted
    have hup : SepSorted cmp up := hlow.parents ih.children_head
    obtain ⟨x, hx, hfind⟩ := hrec hstacked hup fun y hy => hheld y (by simp [hy])
    have hmem : x ∈ up := by
      obtain ⟨pre, post, rfl, -⟩ := hx
      simp
    obtain ⟨c, hc, -, hstep⟩ := hlinked.routes hsorted hx (hheld x (by simp [hmem]))
    refine ⟨c, hc, fun fuel => ?_⟩
    rw [List.length_cons, ← Nat.add_assoc, Nat.add_right_comm, hfind, hstep]

end routing

end IxIndexHandle
end Rmdb
