import Rmdb.Index.BPlusTree

/-! Searches in a B+tree, and the chain of its leaves. -/
namespace Rmdb

open SlotArray

variable {K : Type} {cmp : K → K → Ordering}

namespace IxIndexHandle

variable [Inhabited K] {ih : IxIndexHandle K} {depth n : ℕ} {entries : List (K × Rid)}
  {pre post : List (Option K × ℤ)} {x : Option K × ℤ} {k : K} {p : ℤ}

/-- The entries in the pages `m` steps below some others. -/
def entriesUnder (ih : IxIndexHandle K) (m : ℕ) (level : List (Option K × ℤ)) : List (K × Rid) :=
  ih.entriesOf (Levels.descend ih.children m level)

theorem entriesUnder_append (m : ℕ) (l₁ l₂ : List (Option K × ℤ)) :
    ih.entriesUnder m (l₁ ++ l₂) = ih.entriesUnder m l₁ ++ ih.entriesUnder m l₂ := by
  unfold entriesUnder
  rw [Levels.descend_append, entriesOf_append]

theorem entriesUnder_succ (m : ℕ) (level : List (Option K × ℤ)) :
    ih.entriesUnder (m + 1) level = ih.entriesUnder m (level.flatMap ih.children) := rfl

theorem entriesIn_pagesBelow (m : ℕ) (x : Option K × ℤ) : ih.entriesIn (ih.pagesBelow m x.2) = ih.entriesUnder m [x] := by
  unfold entriesUnder
  rw [← entriesIn_map, map_descend]
  rfl

/-- Only the first page of a level has no separator. -/
theorem separated_eq_cons (ih : IxIndexHandle K) (n : ℕ) :
    ∃ p rest, ih.separated n = (none, p) :: rest ∧ ∀ y ∈ rest, ∃ k, y.1 = some k := by
  have htail : ∀ x, ∃ p rest, ih.children x = (x.1, p) :: rest ∧ ∀ y ∈ rest, ∃ k, y.1 = some k := by
    intro x
    refine ⟨(ih.nodeAt x.2).valueAt 0, toList (fun i => (ih.nodeAt x.2).child x.1 (i + 1)) (ih.nodeAt x.2).numKey, ?_, ?_⟩
    · unfold IxIndexHandle.children IxNodeHandle.children toList
      rw [List.range_succ_eq_map, List.map_cons, List.map_map]
      rfl
    · intro y hy
      obtain ⟨i, -, rfl⟩ := mem_toList.mp hy
      exact ⟨_, rfl⟩
  induction n with
  | zero => exact ⟨_, [], rfl, nofun⟩
  | succ n hrec =>
    obtain ⟨p, rest, hlevel, hrest⟩ := hrec
    obtain ⟨q, rest', hp, hrest'⟩ := htail (none, p)
    refine ⟨q, rest' ++ rest.flatMap ih.children, ?_, fun y hy => ?_⟩
    · have hnext : ih.separated (n + 1) = (ih.separated n).flatMap ih.children := Levels.descend_succ n _
      rw [hnext, hlevel, List.flatMap_cons, hp, List.cons_append]
    · cases List.mem_append.mp hy with
      | inl hy => exact hrest' y hy
      | inr hy =>
        obtain ⟨z, hz, hyz⟩ := List.mem_flatMap.mp hy
        obtain ⟨k, hk⟩ := hrest z hz
        obtain ⟨r, rest'', hr, hrest''⟩ := htail z
        rw [hr] at hyz
        cases List.mem_cons.mp hyz with
        | inl hyz => exact ⟨k, by rw [hyz, hk]⟩
        | inr hyz => exact hrest'' y hyz

namespace BPlusTree

theorem linked (h : BPlusTree cmp ih depth entries) (hn : n < depth) :
    ih.Linked (ih.separated (n + 1)) (ih.separated n) where
  children := Levels.descend_succ n _
  isLeaf x hx := h.internal n hn x.2 (by rw [← map_separated]; exact List.mem_map_of_mem hx)
  parent x hx c hc := by
    have hlevel : x.2 ∈ ih.level n := by
      rw [← map_separated]
      exact List.mem_map_of_mem hx
    refine h.parent n hn x.2 hlevel c.2 ?_
    rw [← map_children]
    exact List.mem_map_of_mem hc

/-- The levels above another, from the lowest one to the root. -/
def levelsAbove (ih : IxIndexHandle K) : ℕ → List (List (Option K × ℤ))
  | 0 => []
  | n + 1 => ih.separated n :: levelsAbove ih n

@[simp] theorem length_levelsAbove : (levelsAbove ih n).length = n := by
  induction n with
  | zero => rfl
  | succ n hrec => rw [levelsAbove, List.length_cons, hrec]

theorem stacked (h : BPlusTree cmp ih depth entries) (hn : n ≤ depth) :
    ih.Stacked (ih.separated n) (levelsAbove ih n) := by
  induction n with
  | zero => exact ⟨rfl, h.rootParent⟩
  | succ n hrec => exact ⟨h.linked hn, hrec (Nat.le_of_succ_le hn)⟩

theorem above (h : BPlusTree cmp ih depth entries) : Above ih [] (ih.separated depth) (levelsAbove ih depth) := by
  have hstacked := h.stacked (Nat.le_refl depth)
  have hperm : ((List.range (depth + 1)).flatMap ih.level).Perm
      ((ih.separated depth ++ (levelsAbove ih depth).flatten).map Prod.snd) := by
    have hperm := hstacked.perm.map Prod.snd
    rw [length_levelsAbove, List.map_flatMap] at hperm
    rwa [show (fun n => (ih.separated n).map Prod.snd) = ih.level from funext ih.map_separated] at hperm
  refine ⟨hstacked, hperm.nodup_iff.mp h.nodup, fun p hp => ?_, fun p hp => ?_⟩
  · obtain ⟨n, hn, hp⟩ := List.mem_flatMap.mp (hperm.mem_iff.mpr hp)
    obtain ⟨hfetch, hpage⟩ := h.fetch n (Nat.le_of_lt_succ (List.mem_range.mp hn)) p hp
    refine ⟨ih.nodeAt p, ?_, hpage⟩
    unfold IxIndexHandle.fetchNode at hfetch
    split at hfetch
    · rename_i node hnode
      rw [hnode, Except.ok.inj hfetch]
    · cases hfetch
  · obtain ⟨n, hn, hp⟩ := List.mem_flatMap.mp (hperm.mem_iff.mpr hp)
    have hrange := h.range n (Nat.le_of_lt_succ (List.mem_range.mp hn)) p hp
    unfold ixLeafHeaderPage at hrange
    omega

/-! ### The separators of a level -/

theorem entriesIn_level (n : ℕ) : ih.entriesIn (ih.level n) = ih.entriesOf (ih.separated n) := by
  rw [← map_separated, entriesIn_map]

theorem mem_level (hx : x ∈ ih.separated n) : x.2 ∈ ih.level n := by
  rw [← map_separated]
  exact List.mem_map_of_mem hx

/-- There are entries below each of two pages that stand in one level. -/
theorem entriesUnder_ne_nil (h : BPlusTree cmp ih depth entries) (hn : n ≤ depth) {y : Option K × ℤ}
    {mid : List (Option K × ℤ)} (hsplit : ih.separated n = pre ++ x :: mid ++ y :: post) :
    ih.entriesUnder (depth - n) [x] ≠ [] ∧ ih.entriesUnder (depth - n) [y] ≠ [] := by
  have hleaves : ih.separated depth = Levels.descend ih.children (depth - n) (ih.separated n) := by
    conv_lhs => rw [← Nat.add_sub_cancel' hn]
    exact Levels.descend_add ..
  have hhead : ∀ z, ∃ q rest, Levels.descend ih.children (depth - n) [z] = (z.1, q) :: rest := ih.descend_head (depth - n)
  have hlen : 1 < (ih.level depth).length := by
    obtain ⟨p, rest, hx⟩ := hhead x
    obtain ⟨q, rest', hy⟩ := hhead y
    rw [← map_separated, List.length_map, hleaves, hsplit, ← List.singleton_append (l := mid),
      ← List.singleton_append (l := post)]
    simp only [Levels.descend_append, List.length_append, hx, hy, List.length_cons]
    omega
  have hne : ∀ z ∈ ih.separated n, ih.entriesUnder (depth - n) [z] ≠ [] := by
    intro z hz hnil
    obtain ⟨q, rest, hdescend⟩ := hhead z
    obtain ⟨before, after, hz⟩ := List.append_of_mem hz
    have hq : (z.1, q) ∈ ih.separated depth := by
      rw [hleaves, hz, ← List.singleton_append (l := after), Levels.descend_append, Levels.descend_append, hdescend]
      simp
    have hpos := (h.numKey q (mem_level hq)).2 hlen
    unfold entriesUnder at hnil
    rw [hdescend, entriesOf_cons, List.append_eq_nil_iff, ← List.length_eq_zero_iff, length_entries] at hnil
    exact hpos.ne' hnil.1
  exact ⟨hne x (by simp [hsplit]), hne y (by simp [hsplit])⟩

theorem entriesUnder_separated (hn : n ≤ depth) :
    ih.entriesUnder (depth - n) (ih.separated n) = ih.entriesIn (ih.level depth) := by
  have hleaves : ih.separated depth = Levels.descend ih.children (depth - n) (ih.separated n) := by
    conv_lhs => rw [← Nat.add_sub_cancel' hn]
    exact Levels.descend_add ..
  rw [entriesIn_level, hleaves]
  rfl

section order
variable [Std.TransCmp cmp]

/-- A key between the entries of two neighbors of a level is between all entries of the level. -/
theorem apart_of_neighbors (h : BPlusTree cmp ih depth entries) (hn : n ≤ depth) {y : Option K × ℤ}
    (hsplit : ih.separated n = pre ++ x :: y :: post)
    (hleft : ∀ e ∈ ih.entriesUnder (depth - n) [x], cmp e.1 k = .lt)
    (hright : ∀ e ∈ ih.entriesUnder (depth - n) [y], cmp k e.1 ≠ .gt) :
    (∀ e ∈ ih.entriesUnder (depth - n) (pre ++ [x]), cmp e.1 k = .lt) ∧
      ∀ e ∈ ih.entriesUnder (depth - n) (y :: post), cmp k e.1 ≠ .gt := by
  obtain ⟨hx, hy⟩ := h.entriesUnder_ne_nil hn (show ih.separated n = pre ++ x :: [] ++ y :: post by simp [hsplit])
  have hsorted := h.sorted
  have hparts : ih.separated n = (pre ++ [x]) ++ ([y] ++ post) := by simp [hsplit]
  rw [← entriesUnder_separated hn, hparts, entriesUnder_append, List.pairwise_append] at hsorted
  obtain ⟨hfront, hback, -⟩ := hsorted
  rw [entriesUnder_append, List.pairwise_append] at hfront hback
  constructor
  · intro e he
    rw [entriesUnder_append] at he
    cases List.mem_append.mp he with
    | inl he =>
      obtain ⟨o, ho⟩ := List.exists_mem_of_ne_nil _ hx
      exact Std.TransCmp.lt_trans (hfront.2.2 e he o ho) (hleft o ho)
    | inr he => exact hleft e he
  · intro e he
    rw [← List.singleton_append, entriesUnder_append] at he
    cases List.mem_append.mp he with
    | inl he => exact hright e he
    | inr he =>
      obtain ⟨o, ho⟩ := List.exists_mem_of_ne_nil _ hy
      have hlt : cmp k e.1 = .lt :=
        Std.TransCmp.lt_of_isLE_of_lt (Ordering.isLE_iff_ne_gt.mpr (hright o ho)) (hback.2.2 o ho e he)
      rw [hlt]
      exact nofun

/-- The separator of a page stands between the entries on its left and the others. -/
theorem separates (h : BPlusTree cmp ih depth entries) (hn : n ≤ depth)
    (hsplit : ih.separated n = pre ++ (some k, p) :: post) :
    (∀ e ∈ ih.entriesUnder (depth - n) pre, cmp e.1 k = .lt) ∧
      ∀ e ∈ ih.entriesUnder (depth - n) ((some k, p) :: post), cmp k e.1 ≠ .gt := by
  induction n generalizing pre k p post with
  | zero =>
    obtain ⟨q, rest, hlevel, hrest⟩ := ih.separated_eq_cons 0
    have hroot : ih.separated 0 = [(none, ih.fileHdr.rootPage)] := rfl
    rw [hroot] at hsplit
    cases pre with
    | nil => cases hsplit
    | cons z pre => simp at hsplit
  | succ n hrec =>
    have hlt : n < depth := hn
    have hdepth : depth - n = depth - (n + 1) + 1 := by omega
    have hchildren : (ih.separated n).flatMap ih.children = pre ++ (some k, p) :: post := by
      rw [← hsplit]
      exact (Levels.descend_succ n _).symm
    obtain ⟨u₁, y, u₂, c₁, c₂, hup, hy, rfl, rfl⟩ := Levels.flatMap_eq_append_cons hchildren
    rcases List.eq_nil_or_concat' c₁ with rfl | ⟨c₁, x, rfl⟩
    · -- the first child of a node has the separator of the node
      obtain ⟨q, rest, hhead⟩ := ih.children_head y
      have hsep : y.1 = some k := by
        rw [hhead, List.nil_append, List.cons.injEq, Prod.mk.injEq] at hy
        exact hy.1.1
      obtain ⟨r, hr⟩ : ∃ r, y = (some k, r) := ⟨y.2, by rw [← hsep]⟩
      have hrec' := hrec (Nat.le_of_lt hlt) (hr ▸ hup)
      rw [hdepth, entriesUnder_succ, entriesUnder_succ, List.flatMap_cons, ← hr, hy, List.nil_append] at hrec'
      rw [List.append_nil]
      exact hrec'
    · have hlen : (ih.children y).length = (ih.nodeAt y.2).numKey + 1 := IxNodeHandle.length_children
      have hcount := congrArg List.length hy
      simp only [List.length_append, List.length_cons, List.length_nil] at hcount
      have hslot : ∀ j (hj : j < (ih.children y).length), (ih.children y)[j] = (ih.nodeAt y.2).child y.1 j :=
        fun j hj => IxNodeHandle.getElem_children hj
      have hleft : (ih.nodeAt y.2).child y.1 c₁.length = x := by
        rw [← hslot _ (by omega)]
        simp [hy]
      have hright : (ih.nodeAt y.2).child y.1 (c₁.length + 1) = (some k, p) := by
        rw [← hslot _ (by omega)]
        simp [hy]
      have hsep := h.separators n hlt y.2 (mem_level (by simp [hup])) c₁.length (by omega)
      have hkey : (ih.nodeAt y.2).keys c₁.length = k := Option.some.inj (congrArg Prod.fst hright)
      have hvalue : (ih.nodeAt y.2).valueAt c₁.length = x.2 := by
        rw [← hleft]
        cases c₁.length <;> rfl
      have hvalue' : (ih.nodeAt y.2).valueAt (c₁.length + 1) = p := congrArg Prod.snd hright
      rw [hkey, hvalue, hvalue', show depth - n - 1 = depth - (n + 1) by omega, entriesIn_pagesBelow,
        entriesIn_pagesBelow _ (some k, p)] at hsep
      have hneighbors : ih.separated (n + 1) =
          (u₁.flatMap ih.children ++ c₁) ++ x :: (some k, p) :: (c₂ ++ u₂.flatMap ih.children) := by
        rw [hsplit]
        simp
      have hapart := h.apart_of_neighbors hn hneighbors hsep.1 hsep.2
      rwa [List.append_assoc] at hapart

/-- The separators of the leaves. -/
theorem leaf_separates (h : BPlusTree cmp ih depth entries) (hsplit : ih.separated depth = pre ++ (some k, p) :: post) :
    (∀ e ∈ ih.entriesOf pre, cmp e.1 k = .lt) ∧ ∀ e ∈ ih.entriesOf ((some k, p) :: post), cmp k e.1 ≠ .gt := by
  have hsep := h.separates (Nat.le_refl depth) hsplit
  rwa [Nat.sub_self] at hsep

omit [Inhabited K] [Std.TransCmp cmp] in
theorem pairwise_of_split {β : Type} {r : β → β → Prop} {l : List β}
    (h : ∀ pre y post, l = pre ++ y :: post → ∀ x ∈ pre, r x y) : l.Pairwise r := by
  refine List.pairwise_iff_getElem.mpr fun i j hi hj hij => ?_
  have hsplit : l = l.take j ++ l[j] :: l.drop (j + 1) := by rw [← List.drop_eq_getElem_cons, List.take_append_drop]
  exact h _ _ _ hsplit _ (List.mem_take_iff_getElem.mpr ⟨i, by omega, rfl⟩)

theorem sepSorted (h : BPlusTree cmp ih depth entries) : SepSorted cmp (ih.separated depth) := by
  refine pairwise_of_split fun pre y post hsplit x hx => ?_
  obtain ⟨q, rest, hlevel, hrest⟩ := ih.separated_eq_cons depth
  obtain ⟨k, hk⟩ : ∃ k, y.1 = some k := by
    cases pre with
    | nil => cases hx
    | cons z pre =>
      rw [hlevel, List.cons_append, List.cons.injEq] at hsplit
      exact hrest y (by rw [hsplit.2]; simp)
  refine ⟨k, hk, fun j hj => ?_⟩
  obtain ⟨a, b, rfl⟩ := List.append_of_mem hx
  obtain ⟨e, he⟩ := List.exists_mem_of_ne_nil _ (h.entriesUnder_ne_nil (Nat.le_refl depth) hsplit).1
  rw [Nat.sub_self] at he
  have hx' : x = (some j, x.2) := Prod.ext hj rfl
  have hy' : y = (some k, y.2) := Prod.ext hk rfl
  have hfrom : cmp j e.1 ≠ .gt := by
    have hsplit' : ih.separated depth = a ++ (some j, x.2) :: (b ++ y :: post) := by rw [hsplit, ← hx']; simp
    refine (h.leaf_separates hsplit').2 e ?_
    rw [← hx', ← List.singleton_append, entriesOf_append]
    exact List.mem_append_left _ he
  have hupto : cmp e.1 k = .lt := by
    refine (h.leaf_separates (hy' ▸ hsplit)).1 e ?_
    rw [← List.singleton_append, entriesOf_append, entriesOf_append]
    exact List.mem_append_right _ (List.mem_append_left _ he)
  exact Std.TransCmp.lt_of_isLE_of_lt (Ordering.isLE_iff_ne_gt.mpr hfrom) hupto

theorem ne_nil (ih : IxIndexHandle K) (n : ℕ) : ih.separated n ≠ [] := by
  obtain ⟨q, rest, hlevel, -⟩ := ih.separated_eq_cons n
  rw [hlevel]
  exact nofun

/-- A search ends in the leaf that the separators lead to, behind all smaller keys and before all others. -/
theorem search (h : BPlusTree cmp ih depth entries) (key : K) : ∃ pre x post,
    ih.separated depth = pre ++ x :: post ∧ Routes cmp key (ih.separated depth) x ∧
      ih.findLeafPage cmp key = .ok (ih.nodeAt x.2) ∧ (∀ e ∈ ih.entriesOf pre, cmp e.1 key = .lt) ∧
      ∀ e ∈ ih.entriesOf post, cmp e.1 key ≠ .lt := by
  have hleaf : ∀ x ∈ ih.separated depth, (ih.nodeAt x.2).isLeaf = true := fun x hx => h.leaf x.2 (mem_level hx)
  obtain ⟨x, hroutes, hfind⟩ := h.above.findLeafPage (ne_nil ih depth) h.sepSorted hleaf key
  obtain ⟨pre, post, hsplit, hbelow, habove⟩ := id hroutes
  obtain ⟨q, rest, hlevel, hrest⟩ := ih.separated_eq_cons depth
  refine ⟨pre, x, post, hsplit, hroutes, hfind, fun e he => ?_, fun e he => ?_⟩
  · obtain ⟨k, hk⟩ : ∃ k, x.1 = some k := by
      cases pre with
      | nil => cases he
      | cons z pre =>
        rw [hlevel, List.cons_append, List.cons.injEq] at hsplit
        exact hrest x (by rw [hsplit.2]; simp)
    have hx : x = (some k, x.2) := Prod.ext hk rfl
    exact Std.TransCmp.lt_trans ((h.leaf_separates (hx ▸ hsplit)).1 e he) (hbelow x (by simp) k hk)
  · obtain ⟨y, hy, hey⟩ := List.mem_flatMap.mp he
    obtain ⟨a, b, rfl⟩ := List.append_of_mem hy
    obtain ⟨k, hk, hge⟩ := habove y hy
    have hy : y = (some k, y.2) := Prod.ext hk rfl
    have hsplit' : ih.separated depth = (pre ++ x :: a) ++ (some k, y.2) :: b := by rw [hsplit, ← hy]; simp
    have hle := (h.leaf_separates hsplit').2 e (by rw [entriesOf_cons]; exact List.mem_append_left _ hey)
    intro hlt
    exact hge (Std.TransCmp.lt_of_isLE_of_lt (Ordering.isLE_iff_ne_gt.mpr hle) hlt)

end order
end BPlusTree
end IxIndexHandle
end Rmdb
