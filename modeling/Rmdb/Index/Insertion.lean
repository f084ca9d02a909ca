import Mathlib.Data.List.Chain
import Rmdb.Index.SplitLevels

/-! `insert_entry` on a tree whose leaves hang together in the order of their keys. -/
namespace Rmdb
namespace IxIndexHandle

open SlotArray Program

variable {K : Type} [Inhabited K] {cmp : K → K → Ordering} {ih ih' : IxIndexHandle K}
  {leaves l₁ l₂ : List (Option K × ℤ)} {above : List (List (Option K × ℤ))} {x y : Option K × ℤ} {key : K}

/-- The entries of some pages from left to right. -/
def entriesOf (ih : IxIndexHandle K) (level : List (Option K × ℤ)) : List (K × Rid) :=
  level.flatMap fun x => (ih.nodeAt x.2).entries

/-- The page on the right names the one on the left, and the other way round. -/
def Neighbors (ih : IxIndexHandle K) (p q : ℤ) : Prop := (ih.nodeAt p).nextLeaf = q ∧ (ih.nodeAt q).prevLeaf = p

/-- The level of the leaves. The separator on the left of a leaf is its first key. -/
structure LeafLevel (cmp : K → K → Ordering) (ih : IxIndexHandle K) (leaves : List (Option K × ℤ)) : Prop where
  isLeaf : ∀ x ∈ leaves, (ih.nodeAt x.2).isLeaf = true
  numKey : ∀ x ∈ leaves, (ih.nodeAt x.2).numKey ≤ ih.fileHdr.maxSize
  nonempty : 1 < leaves.length → ∀ x ∈ leaves, 0 < (ih.nodeAt x.2).numKey
  firstLeaf : leaves.head? = some (none, ih.fileHdr.firstLeaf)
  separator : ∀ x ∈ leaves.tail, x.1 = some ((ih.nodeAt x.2).keys 0)
  sorted : (ih.entriesOf leaves).Pairwise fun a b => cmp a.1 b.1 = .lt
  header : (ih.nodeAt ixLeafHeaderPage).numKey = 0
  ring : (ixLeafHeaderPage :: (leaves.map Prod.snd ++ [ixLeafHeaderPage])).IsChain ih.Neighbors

/-- A B+tree with the given leaves and the given levels above them. -/
structure Tree (cmp : K → K → Ordering) (ih : IxIndexHandle K) (leaves : List (Option K × ℤ))
    (above : List (List (Option K × ℤ))) : Prop where
  above : Above ih [ixLeafHeaderPage] leaves above
  leaf : LeafLevel cmp ih leaves
  room : ∀ x ∈ leaves, (ih.nodeAt x.2).numKey < ih.fileHdr.maxSize
  lastLeaf : leaves.getLast?.map Prod.snd = some ih.fileHdr.lastLeaf

theorem entriesOf_append : ih.entriesOf (l₁ ++ l₂) = ih.entriesOf l₁ ++ ih.entriesOf l₂ := List.flatMap_append ..

theorem entriesOf_cons : ih.entriesOf (x :: l₂) = (ih.nodeAt x.2).entries ++ ih.entriesOf l₂ := List.flatMap_cons ..

theorem entriesOf_congr (h : ∀ x ∈ leaves, (ih'.nodeAt x.2).entries = (ih.nodeAt x.2).entries) :
    ih'.entriesOf leaves = ih.entriesOf leaves := List.flatMap_congr h

omit [Inhabited K] in
theorem mem_entries_iff {node : IxNodeHandle K} {e : K × Rid} :
    e ∈ node.entries ↔ ∃ i < node.numKey, (node.keys i, node.rids i) = e := mem_toList

namespace LeafLevel

theorem exists_cons (h : LeafLevel cmp ih leaves) : ∃ rest, leaves = (none, ih.fileHdr.firstLeaf) :: rest := by
  have hfirst := h.firstLeaf
  cases leaves with
  | nil => cases hfirst
  | cons x rest =>
    rw [List.head?_cons, Option.some.injEq] at hfirst
    exact ⟨rest, by rw [hfirst]⟩

theorem sortedKeys (h : LeafLevel cmp ih leaves) (hx : x ∈ leaves) :
    Sorted cmp (ih.nodeAt x.2).keys (ih.nodeAt x.2).numKey := by
  intro i j hij hj
  have hpair := (List.pairwise_flatMap.mp h.sorted).1 x hx
  have hlt := List.pairwise_iff_getElem.mp hpair i j (by simp; omega) (by simpa using hj) hij
  rwa [getElem_entries, getElem_entries] at hlt

/-- A leaf that is not the first one has its separator as its first key. -/
theorem separator_of_mem (h : LeafLevel cmp ih leaves) (hsplit : leaves = l₁ ++ x :: l₂) (hne : l₁ ≠ []) :
    x.1 = some ((ih.nodeAt x.2).keys 0) ∧ 0 < (ih.nodeAt x.2).numKey := by
  cases l₁ with
  | nil => exact absurd rfl hne
  | cons y l₁ =>
    have htail : x ∈ leaves.tail := by simp [hsplit]
    refine ⟨h.separator x htail, h.nonempty ?_ x (List.mem_of_mem_tail htail)⟩
    rw [hsplit, List.length_append, List.length_cons, List.length_cons]
    omega

theorem sepSorted (h : LeafLevel cmp ih leaves) : SepSorted cmp leaves := by
  obtain ⟨rest, hrest⟩ := h.exists_cons
  have hsep : ∀ y ∈ rest, y.1 = some ((ih.nodeAt y.2).keys 0) ∧ 0 < (ih.nodeAt y.2).numKey := by
    intro y hy
    obtain ⟨l₁, l₂, rfl⟩ := List.append_of_mem hy
    have hsplit : leaves = ((none, ih.fileHdr.firstLeaf) :: l₁) ++ y :: l₂ := by rw [hrest, List.cons_append]
    exact h.separator_of_mem hsplit nofun
  have hpair := (List.pairwise_flatMap.mp h.sorted).2
  rw [hrest, List.pairwise_cons] at hpair
  rw [hrest]
  refine List.pairwise_cons.mpr ⟨fun y hy => ⟨_, (hsep y hy).1, nofun⟩, ?_⟩
  refine List.Pairwise.imp_of_mem (fun {a b} ha hb hlt => ⟨_, (hsep b hb).1, fun j hj => ?_⟩) hpair.2
  rw [(hsep a ha).1, Option.mem_some_iff] at hj
  subst hj
  exact hlt _ (mem_entries_iff.mpr ⟨0, (hsep a ha).2, rfl⟩) _ (mem_entries_iff.mpr ⟨0, (hsep b hb).2, rfl⟩)

variable [Std.TransCmp cmp]

/-- Where the search ends, the entries on the left are below the key and those on the right are not. -/
theorem apart (h : LeafLevel cmp ih leaves) (hroutes : Routes cmp key leaves x) :
    ∃ l₁ l₂, leaves = l₁ ++ x :: l₂ ∧ (∀ e ∈ ih.entriesOf l₁, cmp e.1 key = .lt) ∧
      (∀ e ∈ ih.entriesOf l₂, cmp e.1 key ≠ .lt) ∧ (l₁ ≠ [] → cmp ((ih.nodeAt x.2).keys 0) key = .lt) := by
  obtain ⟨l₁, l₂, hsplit, hbelow, habove⟩ := hroutes
  have hkey : l₁ ≠ [] → cmp ((ih.nodeAt x.2).keys 0) key = .lt := fun hne =>
    hbelow x (by simp) _ (h.separator_of_mem hsplit hne).1
  refine ⟨l₁, l₂, hsplit, fun e he => ?_, fun e he => ?_, hkey⟩
  · have hne : l₁ ≠ [] := by
      rintro rfl
      cases he
    have hsorted := h.sorted
    rw [hsplit, entriesOf_append, entriesOf_cons, List.pairwise_append] at hsorted
    have hlt := hsorted.2.2 e he ((ih.nodeAt x.2).keys 0, (ih.nodeAt x.2).rids 0)
      (List.mem_append_left _ (mem_entries_iff.mpr ⟨0, (h.separator_of_mem hsplit hne).2, rfl⟩))
    exact Std.TransCmp.lt_trans hlt (hkey hne)
  · obtain ⟨y, hy, hey⟩ := List.mem_flatMap.mp he
    obtain ⟨m₁, m₂, hm⟩ := List.append_of_mem hy
    have hsplit' : leaves = (l₁ ++ x :: m₁) ++ y :: m₂ := by rw [hsplit, hm]; simp
    have hfirst := (h.separator_of_mem hsplit' (by simp)).1
    obtain ⟨k, hk, hge⟩ := habove y hy
    rw [hfirst, Option.some.injEq] at hk
    obtain ⟨i, hi, rfl⟩ := mem_entries_iff.mp hey
    intro hlt
    refine hge ?_
    rw [← hk]
    rcases Nat.eq_zero_or_pos i with rfl | hpos
    · exact hlt
    · exact Std.TransCmp.lt_trans (h.sortedKeys (by rw [hsplit']; simp) 0 i hpos hi) hlt

end LeafLevel

/-! ### The search -/

theorem Stacked.ne_nil (h : ih.Stacked leaves above) (hne : leaves ≠ []) : ∀ level ∈ above, level ≠ [] := by
  induction above generalizing leaves with
  | nil => nofun
  | cons up above hrec =>
    obtain ⟨hlinked, hstacked⟩ := h
    have hup : up ≠ [] := by
      rintro rfl
      exact hne hlinked.children
    intro level hlevel
    cases List.mem_cons.mp hlevel with
    | inl heq => exact heq ▸ hup
    | inr hmem => exact hrec hstacked hup level hmem

omit [Inhabited K] in
theorem Pages.length_lt {pages : List ℤ} (h : ih.Pages pages) (hpos : 0 < ih.fd2pageno) :
    pages.length < ih.fd2pageno.toNat := by
  have hsub : pages.toFinset ⊆ Finset.Ioo 0 ih.fd2pageno := by
    intro p hp
    exact Finset.mem_Ioo.mpr (h.range p (List.mem_toFinset.mp hp))
  have hcard := Finset.card_le_card hsub
  rw [List.toFinset_card_of_nodup h.nodup, Int.card_Ioo] at hcard
  omega

omit [Inhabited K] in
theorem length_le_flatten {β : Type} {levels : List (List β)} (h : ∀ level ∈ levels, level ≠ []) :
    levels.length ≤ levels.flatten.length := by
  induction levels with
  | nil => exact Nat.le_refl _
  | cons level levels hrec =>
    have hlevel := List.length_pos_of_ne_nil (h level List.mem_cons_self)
    have hrest := hrec fun level hmem => h level (List.mem_cons_of_mem _ hmem)
    rw [List.length_cons, List.flatten_cons, List.length_append]
    omega

/-- There are less levels than pages. -/
theorem Above.length_lt {below : List ℤ} {low : List (Option K × ℤ)} (h : Above ih below low above) (hlow : low ≠ []) :
    above.length < ih.fd2pageno.toNat := by
  obtain ⟨x, hx⟩ := List.exists_mem_of_ne_nil low hlow
  have hrange := h.pages.range x.2
    (List.mem_append_right _ (List.mem_map_of_mem (List.mem_append_left _ hx)))
  have hlen := h.pages.length_lt (Int.lt_trans hrange.1 hrange.2)
  have hle := length_le_flatten (h.stacked.ne_nil hlow)
  rw [List.length_append, List.length_map, List.length_append] at hlen
  omega

theorem Tree.ne_nil (h : Tree cmp ih leaves above) : leaves ≠ [] := by
  obtain ⟨rest, hrest⟩ := h.leaf.exists_cons
  rw [hrest]
  exact nofun

/-- `find_leaf_page` goes down to the leaf that the separators lead to. -/
theorem Above.findLeafPage [Std.TransCmp cmp] {below : List ℤ} (h : Above ih below leaves above) (hne : leaves ≠ [])
    (hsorted : SepSorted cmp leaves) (hleaf : ∀ x ∈ leaves, (ih.nodeAt x.2).isLeaf = true) (key : K) :
    ∃ x, Routes cmp key leaves x ∧ ih.findLeafPage cmp key = .ok (ih.nodeAt x.2) := by
  have hheld : ∀ y ∈ leaves ++ above.flatten, ih.Holds y.2 := fun y hy =>
    h.pages.holds y.2 (List.mem_append_right _ (List.mem_map_of_mem hy))
  obtain ⟨x, hroutes, hfind⟩ := h.stacked.routes hsorted (fun y hy => hheld y (List.mem_append_right _ hy)) key
  have hx : x ∈ leaves := by
    obtain ⟨pre, post, hsplit, -⟩ := hroutes
    simp [hsplit]
  refine ⟨x, hroutes, ?_⟩
  have hlen := h.length_lt hne
  obtain ⟨fuel, hfuel⟩ : ∃ fuel, ih.fuel = fuel + 1 + above.length :=
    ⟨ih.fd2pageno.toNat - above.length, by unfold IxIndexHandle.fuel; omega⟩
  unfold IxIndexHandle.findLeafPage
  rw [hfuel, hfind]
  unfold findLeafFrom
  rw [(hheld x (List.mem_append_left _ hx)).fetchNode]
  change (if (ih.nodeAt x.2).isLeaf = true then pure (ih.nodeAt x.2) else _) = _
  rw [if_pos (hleaf x hx)]
  rfl

theorem Tree.findLeafPage [Std.TransCmp cmp] (h : Tree cmp ih leaves above) (key : K) :
    ∃ x, Routes cmp key leaves x ∧ ih.findLeafPage cmp key = .ok (ih.nodeAt x.2) :=
  h.above.findLeafPage h.ne_nil h.leaf.sepSorted h.leaf.isLeaf key

/-! ### The entry goes into its leaf -/

omit [Inhabited K] in
/-- Insertion of a new key into a leaf with room. -/
theorem insert_eq [Std.TransCmp cmp] {node : IxNodeHandle K} {hdr : IxFileHdr} (value : Rid)
    (hkeys : Sorted cmp node.keys node.numKey) (hnew : ∀ e ∈ node.entries, cmp e.1 key ≠ .eq)
    (hroom : node.numKey < hdr.maxSize) : ∃ (keys : ℕ → K) (rids : ℕ → Rid) (e₁ e₂ : List (K × Rid)),
      node.insert cmp hdr key value = .ok { node with keys := keys, rids := rids, numKey := node.numKey + 1 } ∧
      ({ node with keys := keys, rids := rids, numKey := node.numKey + 1 } : IxNodeHandle K).entries = e₁ ++ (key, value) :: e₂ ∧
      node.entries = e₁ ++ e₂ ∧ (∀ e ∈ e₁, cmp e.1 key = .lt) ∧ (∀ e ∈ e₂, cmp key e.1 = .lt) ∧
      (0 < node.numKey → cmp (node.keys 0) key = .lt → keys 0 = node.keys 0) := by
  have hle : node.lowerBound cmp key ≤ node.numKey := hkeys.lowerBound_le key
  have hsplit : node.entries = node.entries.take (node.lowerBound cmp key) ++ node.entries.drop (node.lowerBound cmp key) :=
    (List.take_append_drop ..).symm
  have hlen : (node.entries.take (node.lowerBound cmp key)).length = node.lowerBound cmp key := by
    rw [List.length_take, length_entries, Nat.min_eq_left hle]
  refine ⟨insertAt node.keys node.numKey (node.lowerBound cmp key) key,
    insertAt node.rids node.numKey (node.lowerBound cmp key) value, _, _, ?_, ?_, hsplit, fun e he => ?_, fun e he => ?_, ?_⟩
  · unfold IxNodeHandle.insert
    dsimp only
    rw [if_neg, IxNodeHandle.insertPairs_one hle hroom]
    rintro ⟨hlt, heq⟩
    exact hnew _ (mem_entries_iff.mpr ⟨_, hlt, rfl⟩) heq
  · have hinsert := toList_insertAt_append (key, value) hsplit
    rw [hlen] at hinsert
    rw [← hinsert]
    unfold IxNodeHandle.entries
    congr 1
    funext i
    simp only [insertAt]
    split_ifs <;> rfl
  · obtain ⟨i, hi, rfl⟩ := List.mem_take_iff_getElem.mp he
    rw [getElem_entries]
    have hlt : i < node.lowerBound cmp key := by omega
    exact hkeys.lt_of_lt_lowerBound hlt
  · obtain ⟨i, hi, rfl⟩ := List.mem_drop_iff_getElem.mp he
    rw [length_entries] at hi
    rw [getElem_entries]
    rw [Nat.add_comm] at hi
    have hnotLt := hkeys.not_lt_of_lowerBound_le (k := key) (Nat.le_add_right (node.lowerBound cmp key) i) hi
    have hne := hnew _ (mem_entries_iff.mpr ⟨_, hi, rfl⟩)
    cases hc : cmp (node.keys (node.lowerBound cmp key + i)) key with
    | lt => exact absurd hc hnotLt
    | eq => exact absurd hc hne
    | gt => exact Std.OrientedCmp.lt_of_gt hc
  · intro hpos hlt
    have hbound : 0 < node.lowerBound cmp key := by
      by_contra hzero
      exact hkeys.not_lt_of_lowerBound_le (k := key) (Nat.le_of_not_lt hzero) hpos hlt
    simp only [insertAt, if_pos (Or.inl hbound)]

/-- The tree after the entry has been put into its leaf, which may be full now. -/
theorem Tree.writeLeaf [Std.TransCmp cmp] (h : Tree cmp ih leaves above) (value : Rid)
    (hnew : ∀ e ∈ ih.entriesOf leaves, cmp e.1 key ≠ .eq) (hroutes : Routes cmp key leaves x) :
    ∃ node, (ih.nodeAt x.2).insert cmp ih.fileHdr key value = .ok node ∧ node.pageNo = x.2 ∧
      node.numKey = (ih.nodeAt x.2).numKey + 1 ∧ Above (ih.writeNode node) [ixLeafHeaderPage] leaves above ∧
      LeafLevel cmp (ih.writeNode node) leaves ∧
      ((ih.writeNode node).entriesOf leaves).Perm ((key, value) :: ih.entriesOf leaves) := by
  obtain ⟨l₁, l₂, hsplit, hbelow, habove, hfirst⟩ := h.leaf.apart hroutes
  have hx : x ∈ leaves := by simp [hsplit]
  have hentries : ih.entriesOf leaves = ih.entriesOf l₁ ++ ((ih.nodeAt x.2).entries ++ ih.entriesOf l₂) := by
    rw [hsplit, entriesOf_append, entriesOf_cons]
  obtain ⟨keys, rids, e₁, e₂, hinsert, hafter, hbefore, he₁, he₂, hhead⟩ :=
    insert_eq value (h.leaf.sortedKeys hx)
      (fun e he => hnew e (by rw [hentries]; simp [he])) (h.room x hx)
  obtain ⟨node, hnode⟩ : ∃ node : IxNodeHandle K,
      node = { ih.nodeAt x.2 with keys := keys, rids := rids, numKey := (ih.nodeAt x.2).numKey + 1 } := ⟨_, rfl⟩
  rw [← hnode] at hinsert hafter
  have hpages := h.above.pages_around hsplit
  obtain ⟨hheader, hleft, hright⟩ := hpages.apart
  have hpage : node.pageNo = x.2 := by
    rw [hnode]
    exact (hpages.holds x.2 (by simp)).pageNo
  have hsame : ∀ p, p ≠ x.2 → (ih.writeNode node).nodeAt p = ih.nodeAt p := by
    intro p hp
    rw [nodeAt_writeNode, hpage, Function.update_of_ne hp]
  have hself : (ih.writeNode node).nodeAt x.2 = node := by rw [nodeAt_writeNode, hpage, Function.update_self]
  have hentries' : (ih.writeNode node).entriesOf leaves =
      (ih.entriesOf l₁ ++ e₁) ++ (key, value) :: (e₂ ++ ih.entriesOf l₂) := by
    have hfront : (ih.writeNode node).entriesOf l₁ = ih.entriesOf l₁ :=
      entriesOf_congr fun y hy => by rw [hsame _ (hleft y hy)]
    have hback : (ih.writeNode node).entriesOf l₂ = ih.entriesOf l₂ :=
      entriesOf_congr fun y hy => by rw [hsame _ (hright y (List.mem_append_left _ hy))]
    rw [hsplit, entriesOf_append, entriesOf_cons, hself, hafter, hfront, hback]
    simp
  have hold : ih.entriesOf leaves = (ih.entriesOf l₁ ++ e₁) ++ (e₂ ++ ih.entriesOf l₂) := by
    rw [hentries, hbefore]
    simp
  refine ⟨node, hinsert, hpage, by rw [hnode], ⟨?_, h.above.pages.extends extends_writeNode⟩,
    ⟨fun y hy => ?_, fun y hy => ?_, fun hlen y hy => ?_, h.leaf.firstLeaf, fun y hy => ?_, ?_, ?_, ?_⟩, ?_⟩
  · refine h.above.stacked.congr rfl (fun y hy => ?_) fun z hz => hsame _ (hright z (List.mem_append_right _ hz))
    by_cases hyx : y.2 = x.2
    · rw [hyx, hself, hnode]
    · rw [hsame _ hyx]
  · by_cases hyx : y.2 = x.2
    · rw [hyx, hself, hnode]
      exact h.leaf.isLeaf x hx
    · rw [hsame _ hyx]
      exact h.leaf.isLeaf y hy
  · by_cases hyx : y.2 = x.2
    · rw [hyx, hself, hnode]
      exact h.room x hx
    · rw [hsame _ hyx]
      exact h.leaf.numKey y hy
  · by_cases hyx : y.2 = x.2
    · rw [hyx, hself, hnode]
      exact Nat.succ_pos _
    · rw [hsame _ hyx]
      exact h.leaf.nonempty hlen y hy
  · rw [h.leaf.separator y hy]
    by_cases hyx : y.2 = x.2
    · -- the new key is not the first one of its leaf
      have hne : l₁ ≠ [] := by
        rintro rfl
        rw [hsplit] at hy
        exact hright y (List.mem_append_left _ hy) hyx
      have hpos := (h.leaf.separator_of_mem hsplit hne).2
      rw [hyx, hself, hnode]
      exact congrArg some (hhead hpos (hfirst hne)).symm
    · rw [hsame _ hyx]
  · have hsorted := h.leaf.sorted
    rw [hold, List.pairwise_append] at hsorted
    obtain ⟨hs₁, hs₂, hcross⟩ := hsorted
    have hfront : ∀ e ∈ ih.entriesOf l₁ ++ e₁, cmp e.1 key = .lt := fun e he =>
      (List.mem_append.mp he).elim (hbelow e) (he₁ e)
    have hback : ∀ e ∈ e₂ ++ ih.entriesOf l₂, cmp key e.1 = .lt := by
      intro e he
      cases List.mem_append.mp he with
      | inl he => exact he₂ e he
      | inr he =>
        have hne := hnew e (by rw [hentries]; simp [he])
        have hge := habove e he
        cases hc : cmp e.1 key with
        | lt => exact absurd hc hge
        | eq => exact absurd hc hne
        | gt => exact Std.OrientedCmp.lt_of_gt hc
    rw [hentries', List.pairwise_append, List.pairwise_cons]
    refine ⟨hs₁, ⟨hback, hs₂⟩, fun a ha b hb => ?_⟩
    cases List.mem_cons.mp hb with
    | inl hb => exact hb ▸ hfront a ha
    | inr hb => exact hcross a ha b hb
  · rw [hsame _ (hheader _ (by simp))]
    exact h.leaf.header
  · have hlinks : ∀ p, ((ih.writeNode node).nodeAt p).nextLeaf = (ih.nodeAt p).nextLeaf ∧
        ((ih.writeNode node).nodeAt p).prevLeaf = (ih.nodeAt p).prevLeaf := by
      intro p
      by_cases hp : p = x.2
      · rw [hp, hself, hnode]
        exact ⟨rfl, rfl⟩
      · rw [hsame _ hp]
        exact ⟨rfl, rfl⟩
    refine h.leaf.ring.imp fun p q hpq => ?_
    exact ⟨(hlinks p).1.trans hpq.1, (hlinks q).2.trans hpq.2⟩
  · rw [hentries', hold]
    exact List.perm_middle

/-! ### The split of a full leaf -/

omit [Inhabited K] in
theorem isChain_concat_imp {β : Type} {R S : β → β → Prop} {l : List β} {b : β}
    (himp : ∀ a ∈ l, ∀ c ∈ l.tail ++ [b], R a c → S a c) (h : (l ++ [b]).IsChain R) : (l ++ [b]).IsChain S := by
  induction l with
  | nil => exact List.isChain_singleton b
  | cons a l hrec =>
    cases l with
    | nil =>
      simp only [List.cons_append, List.nil_append, List.isChain_pair] at h ⊢
      exact himp a List.mem_cons_self b (by simp) h
    | cons c l =>
      simp only [List.cons_append, List.isChain_cons_cons] at h ⊢
      refine ⟨himp a List.mem_cons_self c (by simp) h.1, hrec (fun d hd e he => himp d (List.mem_cons_of_mem _ hd) e ?_) h.2⟩
      simp only [List.tail_cons, List.mem_append] at he ⊢
      exact he.elim (fun he => .inl (List.mem_cons_of_mem _ he)) .inr

/-- The page behind a leaf in the ring. -/
theorem LeafLevel.exists_next (h : LeafLevel cmp ih leaves) (hsplit : leaves = l₁ ++ x :: l₂) :
    ∃ next rest, l₂.map Prod.snd ++ [ixLeafHeaderPage] = next :: rest ∧
      (ixLeafHeaderPage :: l₁.map Prod.snd ++ [x.2]).IsChain ih.Neighbors ∧ ih.Neighbors x.2 next ∧
      (next :: rest).IsChain ih.Neighbors := by
  have hring := h.ring
  rw [hsplit, List.map_append, List.map_cons, List.append_assoc, List.cons_append] at hring
  cases hnext : l₂.map Prod.snd ++ [ixLeafHeaderPage] with
  | nil => simp at hnext
  | cons next rest =>
    rw [hnext, List.isChain_cons_append_cons_cons] at hring
    exact ⟨next, rest, rfl, hring⟩

omit [Inhabited K] in
theorem entries_eq_take {node node' : IxNodeHandle K} (hkeys : node'.keys = node.keys) (hrids : node'.rids = node.rids)
    (hle : node'.numKey ≤ node.numKey) : node'.entries = node.entries.take node'.numKey := by
  apply List.ext_getElem
  · rw [List.length_take, length_entries, length_entries, Nat.min_eq_left hle]
  · intro i hi _
    rw [List.getElem_take, getElem_entries, getElem_entries, hkeys, hrids]

/-- The page behind a leaf is another one of the file. -/
theorem LeafLevel.nextLeaf_spec (h : LeafLevel cmp ih leaves) (habove : Above ih [ixLeafHeaderPage] leaves above)
    (hx : x ∈ leaves) : ih.Holds (ih.nodeAt x.2).nextLeaf ∧ (ih.nodeAt x.2).nextLeaf ≠ ixNoPage ∧
      (ih.nodeAt x.2).nextLeaf ≠ x.2 ∧ (ih.nodeAt x.2).nextLeaf ≠ ih.fd2pageno := by
  obtain ⟨l₁, l₂, hsplit⟩ := List.append_of_mem hx
  have hpages := habove.pages_around hsplit
  obtain ⟨hheader, -, hright⟩ := hpages.apart
  obtain ⟨next, rest, hnext, -, hlink, -⟩ := h.exists_next hsplit
  have hlink' : (ih.nodeAt x.2).nextLeaf = next := hlink.1
  have hmem : next ∈ l₂.map Prod.snd ++ [ixLeafHeaderPage] := by
    rw [hnext]
    exact List.mem_cons_self
  have hpage : next ∈ [ixLeafHeaderPage] ++ (l₁ ++ x :: (l₂ ++ above.flatten)).map Prod.snd := by
    simp only [List.mem_append, List.map_append, List.map_cons, List.mem_cons] at hmem ⊢
    tauto
  have hrange := hpages.range next hpage
  rw [hlink']
  refine ⟨hpages.holds next hpage, by unfold ixNoPage; omega, ?_, by omega⟩
  cases List.mem_append.mp hmem with
  | inl hmem =>
    obtain ⟨y, hy, rfl⟩ := List.mem_map.mp hmem
    exact hright y (List.mem_append_left _ hy)
  | inr hmem => exact hheader next hmem

/-- The pages after a split of the leaf `x`: the right half stands on a new page, in front of the page `next`. -/
structure LeafSplit (ih ih' : IxIndexHandle K) (l₁ : List (Option K × ℤ)) (x : Option K × ℤ)
    (l₂ upper : List (Option K × ℤ)) (next : ℤ) (rest : List ℤ) (right : IxNodeHandle K) : Prop where
  pages : ih.Pages ([ixLeafHeaderPage] ++ (l₁ ++ x :: (l₂ ++ upper)).map Prod.snd)
  behind : l₂.map Prod.snd ++ [ixLeafHeaderPage] = next :: rest
  half : RightLeaf (ih.nodeAt x.2) right
  leftNode : ih'.nodeAt x.2 =
    { ih.nodeAt x.2 with numKey := ((ih.nodeAt x.2).numKey + 1) / 2, nextLeaf := ih.fd2pageno }
  rightNode : ih'.nodeAt ih.fd2pageno = right
  nextNode : ih'.nodeAt next = { ih.nodeAt next with prevLeaf := ih.fd2pageno }
  same : ∀ p, p ≠ x.2 → p ≠ next → p ≠ ih.fd2pageno → ih'.nodeAt p = ih.nodeAt p

namespace LeafSplit

variable {upper : List (Option K × ℤ)} {p next : ℤ} {rest : List ℤ} {right : IxNodeHandle K}

/-- The page behind the leaf is none of the others. -/
private theorem ne_next {header : ℤ} {front back up : List ℤ} (hnodup : (header :: (front ++ p :: (back ++ up))).Nodup)
    (hnext : back ++ [header] = next :: rest) :
    (∀ q ∈ front, q ≠ next) ∧ (∀ q ∈ up, q ≠ next) ∧ ∀ q ∈ rest, q ≠ next := by
  cases back with
  | nil =>
    obtain ⟨rfl, rfl⟩ := List.cons.inj hnext
    grind
  | cons b back =>
    obtain ⟨rfl, rfl⟩ := List.cons.inj hnext
    grind

section

variable (h : LeafSplit ih ih' l₁ x l₂ upper next rest right)
include h

theorem ne_next_pages : (∀ y ∈ l₁, y.2 ≠ next) ∧ (∀ z ∈ upper, z.2 ≠ next) ∧ ∀ q ∈ rest, q ≠ next := by
  have hnodup := h.pages.nodup
  rw [List.map_append, List.map_cons, List.map_append] at hnodup
  obtain ⟨hfront, hupper, hrest⟩ := ne_next hnodup h.behind
  exact ⟨fun y hy => hfront _ (List.mem_map_of_mem hy), fun z hz => hupper _ (List.mem_map_of_mem hz), hrest⟩

theorem ne_new (hp : p ∈ [ixLeafHeaderPage] ++ (l₁ ++ x :: (l₂ ++ upper)).map Prod.snd) : p ≠ ih.fd2pageno :=
  Int.ne_of_lt (h.pages.range p hp).2

/-- The header and the other leaves are neither the leaf nor the new page. -/
theorem ne_both : (ixLeafHeaderPage ≠ x.2 ∧ ixLeafHeaderPage ≠ ih.fd2pageno) ∧
      ∀ y, y ∈ l₁ ∨ y ∈ l₂ → y.2 ≠ x.2 ∧ y.2 ≠ ih.fd2pageno := by
  obtain ⟨hheader, hleft, hright⟩ := h.pages.apart
  refine ⟨⟨hheader _ (by simp), h.ne_new (by simp)⟩, fun y hy => ⟨?_, ?_⟩⟩
  · exact hy.elim (hleft y) fun hy => hright y (List.mem_append_left _ hy)
  · refine h.ne_new (List.mem_append_right _ (List.mem_map_of_mem ?_))
    rw [List.mem_append, List.mem_cons, List.mem_append]
    tauto

/-- The other pages have kept everything but one pointer. -/
theorem light (hpx : p ≠ x.2) (hpnew : p ≠ ih.fd2pageno) :
    ∃ prevLeaf, ih'.nodeAt p = { ih.nodeAt p with prevLeaf := prevLeaf } := by
  by_cases hpnext : p = next
  · rw [hpnext]
    exact ⟨_, h.nextNode⟩
  · exact ⟨_, h.same p hpx hpnext hpnew⟩

theorem sides (hy : y ∈ l₁ ∨ y ∈ l₂) : ∃ prevLeaf, ih'.nodeAt y.2 = { ih.nodeAt y.2 with prevLeaf := prevLeaf } := by
  obtain ⟨hyx, hynew⟩ := h.ne_both.2 y hy
  exact h.light hyx hynew

theorem upper_eq : ∀ z ∈ upper, ih'.nodeAt z.2 = ih.nodeAt z.2 := by
  intro z hz
  obtain ⟨-, -, hright⟩ := h.pages.apart
  refine h.same _ (hright z (List.mem_append_right _ hz)) (h.ne_next_pages.2.1 z hz) (h.ne_new ?_)
  exact List.mem_append_right _ (List.mem_map_of_mem (by simp [hz]))

theorem forall_mem {P : IxNodeHandle K → Prop}
    (hsides : ∀ y, y ∈ l₁ ∨ y ∈ l₂ → ∀ prevLeaf, P { ih.nodeAt y.2 with prevLeaf := prevLeaf })
    (hleft : P (ih'.nodeAt x.2)) (hright : P right) :
    ∀ y ∈ l₁ ++ x :: (some (right.keys 0), ih.fd2pageno) :: l₂, P (ih'.nodeAt y.2) := by
  intro y hy
  have hcases : (y ∈ l₁ ∨ y ∈ l₂) ∨ y = x ∨ y = (some (right.keys 0), ih.fd2pageno) := by
    rw [List.mem_append, List.mem_cons, List.mem_cons] at hy
    tauto
  rcases hcases with hy | rfl | rfl
  · obtain ⟨prevLeaf, hprev⟩ := h.sides hy
    rw [hprev]
    exact hsides y hy prevLeaf
  · exact hleft
  · rw [h.rightNode]
    exact hright

/-- The two halves have the entries of the leaf. -/
theorem entriesOf_eq :
    ih'.entriesOf (l₁ ++ x :: (some (right.keys 0), ih.fd2pageno) :: l₂) = ih.entriesOf (l₁ ++ x :: l₂) := by
  have hsame : ∀ y, y ∈ l₁ ∨ y ∈ l₂ → (ih'.nodeAt y.2).entries = (ih.nodeAt y.2).entries := by
    intro y hy
    obtain ⟨prevLeaf, hprev⟩ := h.sides hy
    rw [hprev]
    rfl
  have hfirst : ih'.entriesOf l₁ = ih.entriesOf l₁ := entriesOf_congr fun y hy => hsame y (.inl hy)
  have hlast : ih'.entriesOf l₂ = ih.entriesOf l₂ := entriesOf_congr fun y hy => hsame y (.inr hy)
  have hhalf : (ih'.nodeAt x.2).entries = (ih.nodeAt x.2).entries.take (((ih.nodeAt x.2).numKey + 1) / 2) := by
    have hle : (ih'.nodeAt x.2).numKey ≤ (ih.nodeAt x.2).numKey := by
      rw [h.leftNode]
      dsimp only
      omega
    have htake := entries_eq_take (by rw [h.leftNode]) (by rw [h.leftNode]) hle
    rw [htake, h.leftNode]
  rw [entriesOf_append, entriesOf_cons, entriesOf_cons, hfirst, hlast, hhalf, h.rightNode, h.half.entries,
    entriesOf_append, entriesOf_cons, ← List.append_assoc (List.take _ _), List.take_append_drop]

/-- The new page hangs between the leaf and the page behind it. -/
theorem ring (hfront : (ixLeafHeaderPage :: l₁.map Prod.snd ++ [x.2]).IsChain ih.Neighbors)
    (hlink : ih.Neighbors x.2 next) (hback : (next :: rest).IsChain ih.Neighbors)
    (hpage : (ih.nodeAt x.2).pageNo = x.2) :
    (ixLeafHeaderPage :: ((l₁ ++ x :: (some (right.keys 0), ih.fd2pageno) :: l₂).map Prod.snd ++
      [ixLeafHeaderPage])).IsChain ih'.Neighbors := by
  have hnextLeaf : ∀ p, p ≠ x.2 ∧ p ≠ ih.fd2pageno → (ih'.nodeAt p).nextLeaf = (ih.nodeAt p).nextLeaf := by
    rintro p ⟨hpx, hpnew⟩
    obtain ⟨prevLeaf, hprev⟩ := h.light hpx hpnew
    rw [hprev]
  obtain ⟨hheader, hothers⟩ := h.ne_both
  have hfront' : (ixLeafHeaderPage :: l₁.map Prod.snd ++ [x.2]).IsChain ih'.Neighbors := by
    refine isChain_concat_imp (fun p hp q hq hpq => ⟨(hnextLeaf p ?_).trans hpq.1, ?_⟩) hfront
    · cases List.mem_cons.mp hp with
      | inl heq => exact heq ▸ hheader
      | inr hp =>
        obtain ⟨y, hy, rfl⟩ := List.mem_map.mp hp
        exact hothers y (.inl hy)
    · rw [List.tail_cons, List.mem_append, List.mem_singleton] at hq
      rcases hq with hq | rfl
      · obtain ⟨y, hy, rfl⟩ := List.mem_map.mp hq
        obtain ⟨hyx, hynew⟩ := hothers y (.inl hy)
        rw [h.same _ hyx (h.ne_next_pages.1 y hy) hynew]
        exact hpq.2
      · rw [h.leftNode]
        exact hpq.2
  have hback' : (next :: rest).IsChain ih'.Neighbors := by
    have hother : ∀ q ∈ next :: rest, q ≠ x.2 ∧ q ≠ ih.fd2pageno := by
      intro q hq
      rw [← h.behind] at hq
      cases List.mem_append.mp hq with
      | inl hq =>
        obtain ⟨y, hy, rfl⟩ := List.mem_map.mp hq
        exact hothers y (.inr hy)
      | inr hq => exact List.mem_singleton.mp hq ▸ hheader
    refine hback.imp_of_mem_tail_imp fun p q hp hq hpq => ⟨(hnextLeaf p (hother p hp)).trans hpq.1, ?_⟩
    obtain ⟨hqx, hqnew⟩ := hother q (List.mem_cons_of_mem _ hq)
    rw [h.same q hqx (h.ne_next_pages.2.2 q hq) hqnew]
    exact hpq.2
  rw [List.map_append, List.map_cons, List.map_cons, List.append_assoc, List.cons_append, List.cons_append, h.behind,
    List.isChain_cons_append_cons_cons, List.isChain_cons_cons]
  exact ⟨hfront', ⟨by rw [h.leftNode], by rw [h.rightNode, h.half.prevLeaf, hpage]⟩,
    ⟨by rw [h.rightNode, h.half.nextLeaf, hlink.1], by rw [h.nextNode]⟩, hback'⟩

theorem separator (hsep : ∀ y ∈ (l₁ ++ x :: l₂).tail, y.1 = some ((ih.nodeAt y.2).keys 0)) :
    ∀ y ∈ (l₁ ++ x :: (some (right.keys 0), ih.fd2pageno) :: l₂).tail, y.1 = some ((ih'.nodeAt y.2).keys 0) := by
  intro y hy
  have hcases : y ∈ (l₁ ++ x :: l₂).tail ∨ y = (some (right.keys 0), ih.fd2pageno) := by
    cases l₁ with
    | nil =>
      simp only [List.nil_append, List.tail_cons, List.mem_cons] at hy ⊢
      tauto
    | cons z l₁ =>
      simp only [List.cons_append, List.tail_cons, List.mem_append, List.mem_cons] at hy ⊢
      tauto
  rcases hcases with htail | rfl
  · rw [hsep y htail]
    by_cases hyx : y = x
    · rw [hyx, h.leftNode]
    · have hside : y ∈ l₁ ∨ y ∈ l₂ := by
        have := List.mem_of_mem_tail htail
        rw [List.mem_append, List.mem_cons] at this
        tauto
      obtain ⟨prevLeaf, hprev⟩ := h.sides hside
      rw [hprev]
  · rw [h.rightNode]

theorem pages_new (hext : Extends ih.createNode.2 ih') : ih'.Pages ([ixLeafHeaderPage] ++
      ((l₁ ++ x :: (some (right.keys 0), ih.fd2pageno) :: l₂) ++ upper).map Prod.snd) := by
  have hrange := h.pages.range x.2 (by simp)
  refine (h.pages.cons_createNode (Int.lt_trans hrange.1 hrange.2) hext).perm ?_
  have hmiddle : (ih.fd2pageno :: (([ixLeafHeaderPage] ++ (l₁ ++ [x]).map Prod.snd) ++
      (l₂ ++ upper).map Prod.snd)).Perm (([ixLeafHeaderPage] ++ (l₁ ++ [x]).map Prod.snd) ++
      ih.fd2pageno :: (l₂ ++ upper).map Prod.snd) := List.perm_middle.symm
  simpa using hmiddle

omit h in
theorem stacked (h : LeafSplit ih ih' l₁ x l₂ above.flatten next rest right)
    (hstacked : ih.Stacked (l₁ ++ x :: l₂) above) (hroot : ih'.fileHdr.rootPage = ih.fileHdr.rootPage) :
    ih'.Stacked (l₁ ++ x :: l₂) above := by
  refine hstacked.congr hroot (fun y hy => ?_) h.upper_eq
  rw [List.mem_append, List.mem_cons] at hy
  by_cases hyx : y = x
  · rw [hyx, h.leftNode]
  · obtain ⟨prevLeaf, hprev⟩ := h.sides (y := y) (by tauto)
    rw [hprev]

/-- The leaves with the new one are the level of the leaves. -/
theorem leafLevel (hlevel : LeafLevel cmp ih (l₁ ++ x :: l₂)) (hext : Extends ih ih')
    (hleft : 0 < (ih'.nodeAt x.2).numKey) (hright : 0 < right.numKey)
    (hroom : ∀ y ∈ l₁ ++ x :: (some (right.keys 0), ih.fd2pageno) :: l₂, (ih'.nodeAt y.2).numKey < ih.fileHdr.maxSize) :
    LeafLevel cmp ih' (l₁ ++ x :: (some (right.keys 0), ih.fd2pageno) :: l₂) := by
  have hx : x ∈ l₁ ++ x :: l₂ := by simp
  have hside : ∀ y, y ∈ l₁ ∨ y ∈ l₂ → y ∈ l₁ ++ x :: l₂ ∧ 1 < (l₁ ++ x :: l₂).length := by
    intro y hy
    rw [List.mem_append, List.mem_cons, List.length_append, List.length_cons]
    refine ⟨by tauto, ?_⟩
    cases hy with
    | inl hy =>
      have := List.length_pos_of_mem hy
      omega
    | inr hy =>
      have := List.length_pos_of_mem hy
      omega
  obtain ⟨next', rest', hnext, hfront, hlink, hback⟩ := hlevel.exists_next rfl
  obtain ⟨rfl, rfl⟩ := List.cons.inj (h.behind.symm.trans hnext)
  constructor
  · refine h.forall_mem (P := fun node => node.isLeaf = true) (fun y hy _ => hlevel.isLeaf y (hside y hy).1) ?_ h.half.isLeaf
    rw [h.leftNode]
    exact hlevel.isLeaf x hx
  · intro y hy
    rw [hext.maxSize]
    exact Nat.le_of_lt (hroom y hy)
  · intro _
    exact h.forall_mem (P := fun node => 0 < node.numKey)
      (fun y hy _ => hlevel.nonempty (hside y hy).2 y (hside y hy).1) hleft hright
  · rw [hext.firstLeaf, ← hlevel.firstLeaf]
    cases l₁ <;> rfl
  · exact h.separator hlevel.separator
  · rw [h.entriesOf_eq]
    exact hlevel.sorted
  · obtain ⟨prevLeaf, hprev⟩ := h.light h.ne_both.1.1 h.ne_both.1.2
    rw [hprev]
    exact hlevel.header
  · exact h.ring hfront hlink hback (h.pages.holds x.2 (by simp)).pageNo

theorem room (hroom : ∀ y, y ∈ l₁ ∨ y ∈ l₂ → (ih.nodeAt y.2).numKey < ih.fileHdr.maxSize)
    (hfull : (ih.nodeAt x.2).numKey = ih.fileHdr.maxSize)
    (hpoint : ((ih.nodeAt x.2).numKey + 1) / 2 < ih.fileHdr.maxSize) :
    ∀ y ∈ l₁ ++ x :: (some (right.keys 0), ih.fd2pageno) :: l₂, (ih'.nodeAt y.2).numKey < ih.fileHdr.maxSize := by
  refine h.forall_mem (P := fun node => node.numKey < ih.fileHdr.maxSize) (fun y hy _ => hroom y hy) ?_ ?_
  · rw [h.leftNode]
    exact hpoint
  · rw [h.half.numKey]
    omega

end

end LeafSplit

/-- What `split` makes of a leaf of the level. -/
theorem LeafLevel.leafSplit (hlevel : LeafLevel cmp ih leaves) (habove : Above ih [ixLeafHeaderPage] leaves above)
    (hsplit : leaves = l₁ ++ x :: l₂) {right : IxNodeHandle K} (hpage : right.pageNo = ih.fd2pageno)
    (hhalf : RightLeaf (ih.nodeAt x.2) right) (hnodes : ih'.nodeAt = ih.leafSplitPages (ih.nodeAt x.2) right) :
    ∃ next rest, LeafSplit ih ih' l₁ x l₂ above.flatten next rest right := by
  have hx : x ∈ leaves := by simp [hsplit]
  have hpages := habove.pages_around hsplit
  obtain ⟨next, rest, hnext, -, hlink, -⟩ := hlevel.exists_next hsplit
  have hlink' : (ih.nodeAt x.2).nextLeaf = next := hlink.1
  obtain ⟨-, -, hnextX, hnextNew⟩ := hlevel.nextLeaf_spec habove hx
  have hxNew := (hpages.range x.2 (by simp)).2
  rw [hlink'] at hnextX hnextNew
  have hxPage := (hpages.holds x.2 (by simp)).pageNo
  rw [leafSplitPages, hpage, hlink', hxPage] at hnodes
  refine ⟨next, rest, hpages, hnext, hhalf, ?_, ?_, ?_, fun p hpx hpnext hpnew => ?_⟩
  · rw [hnodes, Function.update_self]
    dsimp only
    congr 1
    exact hxPage.symm
  · rw [hnodes, Function.update_of_ne (by omega), Function.update_of_ne (by omega), Function.update_self]
  · rw [hnodes, Function.update_of_ne hnextX, Function.update_self]
  · rw [hnodes, Function.update_of_ne hpx, Function.update_of_ne hpnext, Function.update_of_ne hpnew]

theorem split_leafLevel (habove : Above ih [ixLeafHeaderPage] leaves above) (hlevel : LeafLevel cmp ih leaves)
    (hsplit : leaves = l₁ ++ x :: l₂) (hroom : ∀ y, y ∈ l₁ ∨ y ∈ l₂ → (ih.nodeAt y.2).numKey < ih.fileHdr.maxSize)
    (hfull : (ih.nodeAt x.2).numKey = ih.fileHdr.maxSize) :
    Ends IxError.Stops (fun r => ∃ leaves', leaves' = l₁ ++ x :: (some ((r.2.nodeAt r.1).keys 0), r.1) :: l₂ ∧
        Extends ih r.2 ∧ r.2.Stacked leaves above ∧ (r.2.nodeAt r.1).parent = (r.2.nodeAt x.2).parent ∧
        r.2.Pages ([ixLeafHeaderPage] ++ (leaves' ++ above.flatten).map Prod.snd) ∧ LeafLevel cmp r.2 leaves' ∧
        (∀ y ∈ leaves', (r.2.nodeAt y.2).numKey < ih.fileHdr.maxSize) ∧ r.2.entriesOf leaves' = ih.entriesOf leaves ∧
        ∀ z ∈ above.flatten, r.2.nodeAt z.2 = ih.nodeAt z.2)
      (ih.split x.2) := by
  have hx : x ∈ leaves := by simp [hsplit]
  have hxmem : x.2 ∈ [ixLeafHeaderPage] ++ (leaves ++ above.flatten).map Prod.snd :=
    List.mem_append_right _ (List.mem_map_of_mem (List.mem_append_left _ hx))
  obtain ⟨hnextHeld, hnextNe, hnextX, hnextNew⟩ := hlevel.nextLeaf_spec habove hx
  have hends := split_leaf_ends (habove.pages.holds x.2 hxmem) (Int.ne_of_lt (habove.pages.range x.2 hxmem).2)
    (hlevel.isLeaf x hx) hnextHeld hnextNe hnextX hnextNew
  refine hends.mono fun r hr => ?_
  obtain ⟨hnew, hext, hroot, hpoint, right, hpage, hhalf, hnodes⟩ := hr
  obtain ⟨next, rest, hs⟩ := hlevel.leafSplit habove hsplit hpage hhalf hnodes
  have hext' := extends_createNode.trans hext
  have hroom' := hs.room hroom hfull hpoint
  have hleft : 0 < (r.2.nodeAt x.2).numKey := by
    rw [hs.leftNode]
    dsimp only
    omega
  have hright : 0 < right.numKey := by
    rw [hhalf.numKey]
    omega
  have hstacked := habove.stacked
  rw [hsplit] at hlevel hstacked ⊢
  rw [hnew, hs.rightNode]
  refine ⟨_, rfl, hext', hs.stacked hstacked hroot, ?_, hs.pages_new hext, hs.leafLevel hlevel hext' hleft hright hroom',
    hroom', hs.entriesOf_eq, hs.upper_eq⟩
  rw [hs.leftNode, hhalf.parent]

/-! ### The whole insertion -/

/-- The level of the leaves does not look at parents. -/
theorem LeafLevel.keeps (h : LeafLevel cmp ih leaves) (hk : Keeps ih ih' [ixLeafHeaderPage] leaves) :
    LeafLevel cmp ih' leaves := by
  have hnode : ∀ x ∈ leaves, (ih'.nodeAt x.2).isLeaf = (ih.nodeAt x.2).isLeaf ∧
      (ih'.nodeAt x.2).numKey = (ih.nodeAt x.2).numKey ∧ (ih'.nodeAt x.2).keys = (ih.nodeAt x.2).keys ∧
      (ih'.nodeAt x.2).entries = (ih.nodeAt x.2).entries ∧ (ih'.nodeAt x.2).nextLeaf = (ih.nodeAt x.2).nextLeaf ∧
      (ih'.nodeAt x.2).prevLeaf = (ih.nodeAt x.2).prevLeaf := by
    intro x hx
    obtain ⟨parent, hparent⟩ := hk.low x hx
    rw [hparent]
    exact ⟨rfl, rfl, rfl, rfl, rfl, rfl⟩
  have hheader : ih'.nodeAt ixLeafHeaderPage = ih.nodeAt ixLeafHeaderPage := hk.below _ (List.mem_singleton_self _)
  have hlinks : ∀ p ∈ ixLeafHeaderPage :: (leaves.map Prod.snd ++ [ixLeafHeaderPage]),
      (ih'.nodeAt p).nextLeaf = (ih.nodeAt p).nextLeaf ∧ (ih'.nodeAt p).prevLeaf = (ih.nodeAt p).prevLeaf := by
    intro p hp
    rw [List.mem_cons, List.mem_append, List.mem_singleton] at hp
    rcases hp with rfl | hp | rfl
    · rw [hheader]
      exact ⟨rfl, rfl⟩
    · obtain ⟨x, hx, rfl⟩ := List.mem_map.mp hp
      exact (hnode x hx).2.2.2.2
    · rw [hheader]
      exact ⟨rfl, rfl⟩
  have hentries : ih'.entriesOf leaves = ih.entriesOf leaves := entriesOf_congr fun x hx => (hnode x hx).2.2.2.1
  refine ⟨fun x hx => ?_, fun x hx => ?_, fun hlen x hx => ?_, ?_, fun x hx => ?_, ?_, ?_, ?_⟩
  · rw [(hnode x hx).1]
    exact h.isLeaf x hx
  · rw [(hnode x hx).2.1, hk.ext.maxSize]
    exact h.numKey x hx
  · rw [(hnode x hx).2.1]
    exact h.nonempty hlen x hx
  · rw [hk.ext.firstLeaf]
    exact h.firstLeaf
  · rw [(hnode x (List.mem_of_mem_tail hx)).2.2.1]
    exact h.separator x hx
  · rw [hentries]
    exact h.sorted
  · rw [hheader]
    exact h.header
  · refine h.ring.imp_of_mem_imp fun p q hp hq hpq => ?_
    exact ⟨(hlinks p hp).1.trans hpq.1, (hlinks q hq).2.trans hpq.2⟩

theorem LeafLevel.setLastLeaf (h : LeafLevel cmp ih leaves) (p : ℤ) : LeafLevel cmp (ih.setLastLeaf p) leaves :=
  ⟨h.isLeaf, h.numKey, h.nonempty, h.firstLeaf, h.separator, h.sorted, h.header, h.ring⟩

theorem Above.setLastLeaf {below : List ℤ} (h : Above ih below leaves above) (p : ℤ) :
    Above (ih.setLastLeaf p) below leaves above :=
  ⟨h.stacked.congr rfl (fun _ _ => rfl) fun _ _ => rfl, ⟨h.pages.nodup, h.pages.holds, h.pages.range⟩⟩

theorem splitFullLeaf_tree [Std.TransCmp cmp] (habove : Above ih [ixLeafHeaderPage] leaves above)
    (hlevel : LeafLevel cmp ih leaves) (hlast : leaves.getLast?.map Prod.snd = some ih.fileHdr.lastLeaf) (hx : x ∈ leaves)
    (hroom : ∀ y ∈ leaves, y.2 ≠ x.2 → (ih.nodeAt y.2).numKey < ih.fileHdr.maxSize)
    (hfull : (ih.nodeAt x.2).numKey = ih.fileHdr.maxSize) :
    Ends IxError.Stops (fun ih' => ih'.unique = ih.unique ∧ ∃ leaves' above', Tree cmp ih' leaves' above' ∧
      ih'.entriesOf leaves' = ih.entriesOf leaves) (ih.splitFullLeaf cmp x.2) := by
  obtain ⟨l₁, l₂, hsplit⟩ := List.append_of_mem hx
  have hpages := habove.pages_around hsplit
  obtain ⟨-, hleft, hright⟩ := hpages.apart
  have hsides : ∀ y, y ∈ l₁ ∨ y ∈ l₂ → (ih.nodeAt y.2).numKey < ih.fileHdr.maxSize := by
    intro y hy
    refine hroom y ?_ (hy.elim (hleft y) fun hy => hright y (List.mem_append_left _ hy))
    rw [hsplit, List.mem_append, List.mem_cons]
    tauto
  have hlen := habove.length_lt (List.ne_nil_of_mem hx)
  unfold splitFullLeaf
  refine (split_leafLevel habove hlevel hsplit hsides hfull).bind fun r hr => ?_
  obtain ⟨leaves', hleaves', hext, hstacked, hparent, hpages', hlevel', hroom', hentries, -⟩ := hr
  have hnewHeld : r.2.Holds r.1 := hpages'.holds _ (by simp [hleaves'])
  have hfuel : above.length < r.2.fuel := by
    have := hext.fd2pageno
    unfold IxIndexHandle.fuel
    omega
  change Ends _ _ (r.2.fetchNode r.1 >>= fun _ => _)
  rw [hnewHeld.fetchNode]
  change Ends _ _ (insertIntoParent cmp r.2.fuel r.2 x.2 ((r.2.nodeAt r.1).keys 0) r.1 >>= fun _ => _)
  rw [hsplit] at hstacked
  have hsorted := hlevel'.sepSorted
  rw [hleaves'] at hsorted hpages'
  refine (insertIntoParent_above hfuel hstacked hpages' hparent hsorted).bind fun ih₃ h₃ => ?_
  obtain ⟨hkeeps, above', habove'⟩ := h₃
  rw [← hleaves'] at hkeeps habove'
  have hlevel₃ := hlevel'.keeps hkeeps
  have hlastLeaf : ih₃.fileHdr.lastLeaf = ih.fileHdr.lastLeaf := hkeeps.ext.lastLeaf.trans hext.lastLeaf
  have hunique : ih₃.unique = ih.unique := hkeeps.ext.unique.trans hext.unique
  have hmax : ih₃.fileHdr.maxSize = ih.fileHdr.maxSize := (hext.trans hkeeps.ext).maxSize
  have hroom₃ : ∀ y ∈ leaves', (ih₃.nodeAt y.2).numKey < ih₃.fileHdr.maxSize := by
    intro y hy
    obtain ⟨parent, hparent⟩ := hkeeps.low y hy
    rw [hparent, hmax]
    exact hroom' y hy
  have hentries₃ : ih₃.entriesOf leaves' = ih.entriesOf leaves := by
    rw [← hentries]
    refine entriesOf_congr fun y hy => ?_
    obtain ⟨parent, hparent⟩ := hkeeps.low y hy
    rw [hparent]
    rfl
  have hpure : ∀ ih' : IxIndexHandle K, (if x.2 = ih₃.fileHdr.lastLeaf then ih₃.setLastLeaf r.1 else ih₃) = ih' →
      (ih'.unique = ih.unique ∧ ∃ leaves' above', Tree cmp ih' leaves' above' ∧
        ih'.entriesOf leaves' = ih.entriesOf leaves) →
      Ends IxError.Stops (fun ih' => ih'.unique = ih.unique ∧ ∃ leaves' above', Tree cmp ih' leaves' above' ∧
        ih'.entriesOf leaves' = ih.entriesOf leaves)
        (pure (if x.2 = ih₃.fileHdr.lastLeaf then ih₃.setLastLeaf r.1 else ih₃) : Except IxError (IxIndexHandle K)) := by
    intro ih' heq h
    rw [heq]
    exact h
  cases l₂ with
  | nil =>
    have hlastX : x.2 = ih₃.fileHdr.lastLeaf := by
      rw [hsplit, List.getLast?_append] at hlast
      rw [hlastLeaf]
      exact Option.some.inj hlast
    refine hpure _ (if_pos hlastX) ⟨hunique, leaves', above', ⟨habove'.setLastLeaf _, hlevel₃.setLastLeaf _, hroom₃, ?_⟩,
      hentries₃⟩
    rw [hleaves']
    simp [IxIndexHandle.setLastLeaf]
  | cons y l₂ =>
    have hend : ∀ l : List (Option K × ℤ), (l ++ y :: l₂).getLast? = (y :: l₂).getLast? := fun l =>
      List.getLast?_append_of_ne_nil l (List.cons_ne_nil y l₂)
    rw [hsplit, List.append_cons, hend] at hlast
    have hnotLast : x.2 ≠ ih₃.fileHdr.lastLeaf := by
      intro heq
      obtain ⟨z, hz, hzlast⟩ := Option.map_eq_some_iff.mp hlast
      refine hright z (List.mem_append_left _ (List.mem_of_getLast? hz)) ?_
      rw [hzlast, heq, hlastLeaf]
    refine hpure _ (if_neg hnotLast) ⟨hunique, leaves', above', ⟨habove', hlevel₃, hroom₃, ?_⟩, hentries₃⟩
    rw [hlastLeaf, ← hlast, hleaves', List.append_cons, List.append_cons, hend]

omit [Inhabited K] in
theorem leafLookup_of_new [Std.TransCmp cmp] {leaf : IxNodeHandle K} (hleaf : leaf.isLeaf = true)
    (hkeys : Sorted cmp leaf.keys leaf.numKey) (hnew : ∀ e ∈ leaf.entries, cmp e.1 key ≠ .eq) :
    leaf.leafLookup cmp key = .ok none := by
  rw [leafLookup_eq hleaf hkeys]
  exact congrArg Except.ok (lookup_eq_none.mpr hnew)

theorem insertEntry_of_none {leaf : IxNodeHandle K} {value : Rid} (hnone : ih.getValue cmp key = .ok none)
    (hfind : ih.findLeafPage cmp key = .ok leaf) :
    ih.insertEntry cmp key value = leaf.insert cmp ih.fileHdr key value >>= fun leaf =>
      if leaf.numKey = ih.fileHdr.maxSize then
        (ih.writeNode leaf).splitFullLeaf cmp leaf.pageNo >>= fun ih' => pure (leaf.pageNo, ih')
      else pure (leaf.pageNo, ih.writeNode leaf) := by
  unfold IxIndexHandle.insertEntry
  dsimp only
  split
  · rw [hnone, hfind]
    rfl
  · rw [hfind]
    rfl

/-- An insertion of a new key keeps the tree, or stops at an assertion or behind a page. -/
theorem Tree.insertEntry [Std.TransCmp cmp] (h : Tree cmp ih leaves above) (value : Rid)
    (hnew : ∀ e ∈ ih.entriesOf leaves, cmp e.1 key ≠ .eq) :
    Ends IxError.Stops (fun r => r.2.unique = ih.unique ∧ ∃ leaves' above', Tree cmp r.2 leaves' above' ∧
      (r.2.entriesOf leaves').Perm ((key, value) :: ih.entriesOf leaves)) (ih.insertEntry cmp key value) := by
  obtain ⟨x, hroutes, hfind⟩ := h.findLeafPage key
  have hx : x ∈ leaves := by
    obtain ⟨pre, post, hsplit, -⟩ := hroutes
    simp [hsplit]
  have hnone : ih.getValue cmp key = .ok none := by
    unfold getValue
    rw [hfind]
    exact leafLookup_of_new (h.leaf.isLeaf x hx) (h.leaf.sortedKeys hx) fun e he =>
      hnew e (List.mem_flatMap.mpr ⟨x, hx, he⟩)
  obtain ⟨node, hinsert, hpage, hnumKey, habove, hlevel, hperm⟩ := h.writeLeaf value hnew hroutes
  have hself : (ih.writeNode node).nodeAt x.2 = node := by rw [nodeAt_writeNode, hpage, Function.update_self]
  have hother : ∀ y ∈ leaves, y.2 ≠ x.2 → ((ih.writeNode node).nodeAt y.2).numKey < ih.fileHdr.maxSize := by
    intro y hy hyx
    rw [nodeAt_writeNode, hpage, Function.update_of_ne hyx]
    exact h.room y hy
  rw [insertEntry_of_none hnone hfind, hinsert]
  change Ends _ _ (if node.numKey = ih.fileHdr.maxSize then (ih.writeNode node).splitFullLeaf cmp node.pageNo >>= fun _ => _
    else _)
  split
  · rename_i hfull
    rw [hpage]
    refine (splitFullLeaf_tree habove hlevel h.lastLeaf hx hother (by rw [hself]; exact hfull)).bind fun ih' h' => ?_
    obtain ⟨hunique, leaves', above', htree, hentries⟩ := h'
    exact ⟨hunique, leaves', above', htree, by rw [hentries]; exact hperm⟩
  · rename_i hroom
    refine ⟨rfl, leaves, above, ⟨habove, hlevel, fun y hy => ?_, h.lastLeaf⟩, hperm⟩
    by_cases hyx : y.2 = x.2
    · rw [hyx, hself]
      exact Nat.lt_of_le_of_ne (by rw [hnumKey]; exact h.room x hx) hroom
    · exact hother y hy hyx

end IxIndexHandle
end Rmdb
