import Rmdb.Index.Correctness
import Rmdb.Index.Insertion

/-! The invariant of a B+tree, read off the pages, and the runs of insertions that keep it. -/
namespace Rmdb
namespace IxIndexHandle

open SlotArray Program

variable {K : Type} [Inhabited K] (ih : IxIndexHandle K)

def childPages (p : ℤ) : List ℤ := toList (ih.nodeAt p).valueAt ((ih.nodeAt p).numKey + 1)

/-- The pages `n` steps below a page, from left to right. -/
def pagesBelow (n : ℕ) (p : ℤ) : List ℤ := Levels.descend ih.childPages n [p]

def level (n : ℕ) : List ℤ := ih.pagesBelow n ih.fileHdr.rootPage

def entriesIn (pages : List ℤ) : List (K × Rid) := pages.flatMap fun p => (ih.nodeAt p).entries

/-- The pages from a leaf along `next_leaf` up to `last_leaf_`. -/
def leafPagesFrom : ℕ → ℤ → Except IxError (List ℤ)
  | 0, _ => throw .unfinished
  | fuel + 1, pageNo =>
    if pageNo = ih.fileHdr.lastLeaf then return [pageNo]
    else do
      let node ← ih.fetchNode pageNo
      return pageNo :: (← leafPagesFrom fuel node.nextLeaf)

/-- A B+tree whose leaves are `depth` levels below the root and hold the given entries. -/
structure BPlusTree (cmp : K → K → Ordering) (ih : IxIndexHandle K) (depth : ℕ) (entries : List (K × Rid)) : Prop where
  fetch : ∀ n ≤ depth, ∀ p ∈ ih.level n, ih.fetchNode p = .ok (ih.nodeAt p) ∧ (ih.nodeAt p).pageNo = p
  range : ∀ n ≤ depth, ∀ p ∈ ih.level n, ixLeafHeaderPage < p ∧ p < ih.fd2pageno
  nodup : ((List.range (depth + 1)).flatMap ih.level).Nodup
  header : ih.fetchNode ixLeafHeaderPage = .ok (ih.nodeAt ixLeafHeaderPage) ∧ (ih.nodeAt ixLeafHeaderPage).numKey = 0
  internal : ∀ n < depth, ∀ p ∈ ih.level n, (ih.nodeAt p).isLeaf = false
  leaf : ∀ p ∈ ih.level depth, (ih.nodeAt p).isLeaf = true
  numKey : ∀ p ∈ ih.level depth, (ih.nodeAt p).numKey ≤ ih.fileHdr.maxSize ∧
    (1 < (ih.level depth).length → 0 < (ih.nodeAt p).numKey)
  keys : ∀ n < depth, ∀ p ∈ ih.level n, Sorted cmp (ih.nodeAt p).keys (ih.nodeAt p).numKey
  rootParent : (ih.nodeAt ih.fileHdr.rootPage).parent = ixNoPage
  parent : ∀ n < depth, ∀ p ∈ ih.level n, ∀ c ∈ ih.childPages p, (ih.nodeAt c).parent = p
  chain : ih.leafPagesFrom ih.fuel ih.fileHdr.firstLeaf = .ok (ih.level depth)
  lastLeaf : (ih.nodeAt ih.fileHdr.lastLeaf).nextLeaf = ixLeafHeaderPage
  prevLeaf : ∀ p ∈ ixLeafHeaderPage :: ih.level depth,
    (ih.nodeAt (ih.nodeAt p).nextLeaf).prevLeaf = p ∧ (ih.nodeAt (ih.nodeAt p).prevLeaf).nextLeaf = p
  sorted : (ih.entriesIn (ih.level depth)).Pairwise fun a b => cmp a.1 b.1 = .lt
  perm : (ih.entriesIn (ih.level depth)).Perm entries
  separators : ∀ n < depth, ∀ p ∈ ih.level n, ∀ i < (ih.nodeAt p).numKey,
    (∀ e ∈ ih.entriesIn (ih.pagesBelow (depth - n - 1) ((ih.nodeAt p).valueAt i)), cmp e.1 ((ih.nodeAt p).keys i) = .lt) ∧
      ∀ e ∈ ih.entriesIn (ih.pagesBelow (depth - n - 1) ((ih.nodeAt p).valueAt (i + 1))),
        cmp ((ih.nodeAt p).keys i) e.1 ≠ .gt

variable {cmp : K → K → Ordering} {ih} {leaves low : List (Option K × ℤ)} {above : List (List (Option K × ℤ))}
  {x y : Option K × ℤ}

/-! ### Levels with and without their separators -/

theorem map_children (ih : IxIndexHandle K) (x : Option K × ℤ) : (ih.children x).map Prod.snd = ih.childPages x.2 := by
  unfold children IxNodeHandle.children childPages toList
  rw [List.map_map]
  refine List.map_congr_left fun i _ => ?_
  cases i <;> rfl

theorem map_descend (ih : IxIndexHandle K) (n : ℕ) (l : List (Option K × ℤ)) :
    (Levels.descend ih.children n l).map Prod.snd = Levels.descend ih.childPages n (l.map Prod.snd) :=
  Levels.descend_map Prod.snd ih.map_children n l

/-- The level `n` steps below the root, with its separators. -/
def separated (ih : IxIndexHandle K) (n : ℕ) : List (Option K × ℤ) :=
  Levels.descend ih.children n [(none, ih.fileHdr.rootPage)]

theorem map_separated (ih : IxIndexHandle K) (n : ℕ) : (ih.separated n).map Prod.snd = ih.level n :=
  ih.map_descend n _

theorem Stacked.separated_length (h : ih.Stacked low above) : ih.separated above.length = low := by
  induction above generalizing low with
  | nil => exact h.1.symm
  | cons up above hrec =>
    unfold separated
    rw [List.length_cons, Levels.descend_succ, ← separated, hrec h.2, h.1.children]

/-- The levels above the lowest one. -/
theorem Stacked.separated_lt (h : ih.Stacked low above) {n : ℕ} (hn : n < above.length) :
    ∀ x ∈ ih.separated n, (ih.nodeAt x.2).isLeaf = false ∧ ∀ c ∈ ih.children x, (ih.nodeAt c.2).parent = x.2 := by
  induction above generalizing low with
  | nil => cases hn
  | cons up above hrec =>
    rcases Nat.lt_or_eq_of_le (Nat.le_of_lt_succ hn) with hn | rfl
    · exact hrec h.2 hn
    · intro x hx
      rw [h.2.separated_length] at hx
      exact ⟨h.1.isLeaf x hx, h.1.parent x hx⟩

theorem Stacked.sepSorted [Std.TransCmp cmp] (h : ih.Stacked low above) (hsorted : SepSorted cmp low) {n : ℕ}
    (hn : n ≤ above.length) : SepSorted cmp (ih.separated n) := by
  induction above generalizing low with
  | nil =>
    obtain rfl : n = 0 := Nat.le_zero.mp hn
    rw [show ih.separated 0 = low from h.separated_length]
    exact hsorted
  | cons up above hrec =>
    rcases Nat.lt_or_eq_of_le hn with hn | rfl
    · have hup : SepSorted cmp (up.flatMap ih.children) := h.1.children ▸ hsorted
      exact hrec h.2 (hup.parents ih.children_head) (Nat.le_of_lt_succ hn)
    · rw [h.separated_length]
      exact hsorted

theorem Stacked.perm (h : ih.Stacked low above) :
    ((List.range (above.length + 1)).flatMap ih.separated).Perm (low ++ above.flatten) := by
  induction above generalizing low with
  | nil =>
    have hlow := h.separated_length
    simpa using List.Perm.of_eq hlow
  | cons up above hrec =>
    rw [List.length_cons, List.range_succ, List.flatMap_append, List.flatMap_singleton]
    have hlow := h.separated_length
    rw [List.length_cons] at hlow
    rw [hlow, List.flatten_cons]
    exact ((hrec h.2).append_right low).trans List.perm_append_comm

theorem Stacked.mem_separated (h : ih.Stacked low above) {n : ℕ} (hn : n ≤ above.length) (hx : x ∈ ih.separated n) :
    x ∈ low ++ above.flatten :=
  h.perm.subset (List.mem_flatMap.mpr ⟨n, List.mem_range.mpr (by omega), hx⟩)

theorem descend_head (ih : IxIndexHandle K) (n : ℕ) (x : Option K × ℤ) :
    ∃ p rest, Levels.descend ih.children n [x] = (x.1, p) :: rest := by
  induction n generalizing x with
  | zero => exact ⟨x.2, [], rfl⟩
  | succ n hrec =>
    obtain ⟨p, rest, hx⟩ := ih.children_head x
    obtain ⟨q, rest', hp⟩ := hrec (x.1, p)
    refine ⟨q, rest' ++ Levels.descend ih.children n rest, ?_⟩
    rw [Levels.descend, List.flatMap_singleton, hx, ← List.singleton_append, Levels.descend_append, hp, List.cons_append]

theorem entriesIn_map (ih : IxIndexHandle K) (l : List (Option K × ℤ)) : ih.entriesIn (l.map Prod.snd) = ih.entriesOf l :=
  List.flatMap_map ..

/-- The separator between two leaves stands between their entries. -/
theorem LeafLevel.separates [Std.TransCmp cmp] (h : LeafLevel cmp ih leaves) {l₁ l₂ : List (Option K × ℤ)} {k : K} {p : ℤ}
    (hsplit : leaves = l₁ ++ (some k, p) :: l₂) :
    (∀ e ∈ ih.entriesOf l₁, cmp e.1 k = .lt) ∧ ∀ e ∈ ih.entriesOf ((some k, p) :: l₂), cmp k e.1 ≠ .gt := by
  have hne : l₁ ≠ [] := by
    rintro rfl
    obtain ⟨rest, hrest⟩ := h.exists_cons
    rw [hrest, List.nil_append, List.cons.injEq, Prod.mk.injEq] at hsplit
    exact nomatch hsplit.1.1
  obtain ⟨hkey, hpos⟩ := h.separator_of_mem hsplit hne
  have hfirst : (ih.nodeAt p).keys 0 = k := (Option.some.inj hkey).symm
  have hmem : (k, (ih.nodeAt p).rids 0) ∈ (ih.nodeAt p).entries := mem_entries_iff.mpr ⟨0, hpos, by rw [hfirst]⟩
  have hsorted := h.sorted
  rw [hsplit, entriesOf_append, List.pairwise_append] at hsorted
  refine ⟨fun e he => hsorted.2.2 e he _ (by rw [entriesOf_cons]; exact List.mem_append_left _ hmem), fun e he => ?_⟩
  have hhead : ∃ rest, ih.entriesOf ((some k, p) :: l₂) = (k, (ih.nodeAt p).rids 0) :: rest := by
    obtain ⟨n, hn⟩ := Nat.exists_eq_succ_of_ne_zero (Nat.ne_of_gt hpos)
    obtain ⟨rest, hrest⟩ : ∃ rest, (ih.nodeAt p).entries = ((ih.nodeAt p).keys 0, (ih.nodeAt p).rids 0) :: rest := by
      unfold IxNodeHandle.entries toList
      rw [hn, List.range_succ_eq_map, List.map_cons]
      exact ⟨_, rfl⟩
    refine ⟨rest ++ ih.entriesOf l₂, ?_⟩
    rw [entriesOf_cons, hrest, hfirst, List.cons_append]
  obtain ⟨rest, hrest⟩ := hhead
  rw [hrest] at he hsorted
  rcases List.mem_cons.mp he with rfl | he
  · have hrefl : cmp k k = .eq := Std.ReflCmp.compare_self
    rw [hrefl]
    exact nofun
  · rw [(List.pairwise_cons.mp hsorted.2.1).1 e he]
    exact nofun

theorem Tree.separators [Std.TransCmp cmp] (h : Tree cmp ih leaves above) {n : ℕ} (hn : n < above.length)
    (hx : x ∈ ih.separated n) {i : ℕ} (hi : i < (ih.nodeAt x.2).numKey) :
    (∀ e ∈ ih.entriesIn (ih.pagesBelow (above.length - n - 1) ((ih.nodeAt x.2).valueAt i)),
        cmp e.1 ((ih.nodeAt x.2).keys i) = .lt) ∧
      ∀ e ∈ ih.entriesIn (ih.pagesBelow (above.length - n - 1) ((ih.nodeAt x.2).valueAt (i + 1))),
        cmp ((ih.nodeAt x.2).keys i) e.1 ≠ .gt := by
  obtain ⟨m, hm⟩ : ∃ m, above.length = n + (m + 1) := ⟨above.length - n - 1, by omega⟩
  rw [show above.length - n - 1 = m by omega]
  have hleaves : leaves = Levels.descend ih.children (m + 1) (ih.separated n) := by
    rw [← h.above.stacked.separated_length, separated, hm, Levels.descend_add, ← separated]
  obtain ⟨before, after, hlevel⟩ := List.append_of_mem hx
  have hlen : (ih.children x).length = (ih.nodeAt x.2).numKey + 1 := IxNodeHandle.length_children
  have hsplit : ih.children x = (ih.children x).take i ++ (ih.nodeAt x.2).child x.1 i ::
      (ih.nodeAt x.2).child x.1 (i + 1) :: (ih.children x).drop (i + 2) := by
    have hget : ∀ j (hj : j < (ih.children x).length), (ih.children x)[j] = (ih.nodeAt x.2).child x.1 j :=
      fun j hj => IxNodeHandle.getElem_children hj
    rw [← hget i (by omega), ← hget (i + 1) (by omega), ← List.drop_eq_getElem_cons, ← List.drop_eq_getElem_cons,
      List.take_append_drop]
  obtain ⟨p, rest, hright⟩ := ih.descend_head m ((ih.nodeAt x.2).child x.1 (i + 1))
  have hparts : leaves = (Levels.descend ih.children m (before.flatMap ih.children ++ (ih.children x).take i) ++
      Levels.descend ih.children m [(ih.nodeAt x.2).child x.1 i]) ++
        (some ((ih.nodeAt x.2).keys i), p) :: (rest ++
          Levels.descend ih.children m ((ih.children x).drop (i + 2) ++ after.flatMap ih.children)) := by
    have hright' : Levels.descend ih.children m [(ih.nodeAt x.2).child x.1 (i + 1)] =
        (some ((ih.nodeAt x.2).keys i), p) :: rest := hright
    rw [← List.cons_append, ← hright', ← Levels.descend_append, ← Levels.descend_append, ← Levels.descend_append, hleaves,
      Levels.descend, hlevel, List.flatMap_append, List.flatMap_cons]
    conv_lhs => rw [hsplit]
    simp
  obtain ⟨hbelow, habove⟩ := h.leaf.separates hparts
  have hpages : ∀ j, ih.entriesIn (ih.pagesBelow m ((ih.nodeAt x.2).valueAt j)) =
      ih.entriesOf (Levels.descend ih.children m [(ih.nodeAt x.2).child x.1 j]) := by
    intro j
    rw [← entriesIn_map, map_descend]
    cases j <;> rfl
  refine ⟨fun e he => hbelow e ?_, fun e he => habove e ?_⟩
  · rw [hpages] at he
    rw [entriesOf_append]
    exact List.mem_append_right _ he
  · rw [hpages, hright] at he
    rw [← List.cons_append, entriesOf_append]
    exact List.mem_append_left _ he

/-! ### The walk along the leaves -/

theorem leafPagesFrom_eq {fuel : ℕ} {p : ℤ} {rest : List ℤ} (hheld : ∀ q ∈ p :: rest, ih.Holds q)
    (hnodup : (p :: rest).Nodup) (hlinks : (p :: rest).IsChain fun p q => (ih.nodeAt p).nextLeaf = q)
    (hlast : (p :: rest).getLast? = some ih.fileHdr.lastLeaf) (hfuel : rest.length < fuel) :
    ih.leafPagesFrom fuel p = .ok (p :: rest) := by
  induction rest generalizing p fuel with
  | nil =>
    obtain ⟨fuel, rfl⟩ := Nat.exists_eq_succ_of_ne_zero (Nat.ne_of_gt hfuel)
    have hp : p = ih.fileHdr.lastLeaf := Option.some.inj hlast
    unfold leafPagesFrom
    rw [if_pos hp]
    rfl
  | cons q rest hrec =>
    obtain ⟨fuel, rfl⟩ := Nat.exists_eq_succ_of_ne_zero (Nat.ne_of_gt (Nat.zero_lt_of_lt hfuel))
    rw [List.getLast?_cons_cons] at hlast
    have hp : p ≠ ih.fileHdr.lastLeaf := by
      rintro rfl
      exact (List.nodup_cons.mp hnodup).1 (List.mem_of_getLast? hlast)
    have hrest := hrec (fun r hr => hheld r (List.mem_cons_of_mem _ hr)) (List.nodup_cons.mp hnodup).2
      (List.isChain_cons_cons.mp hlinks).2 hlast (Nat.lt_of_succ_lt_succ hfuel)
    unfold leafPagesFrom
    rw [if_neg hp, (hheld p List.mem_cons_self).fetchNode]
    change (ih.leafPagesFrom fuel (ih.nodeAt p).nextLeaf >>= fun _ => _) = _
    rw [(List.isChain_cons_cons.mp hlinks).1, hrest]
    rfl

/-! ### From the levels to the pages -/

theorem Stacked.rootParent (h : ih.Stacked low above) : (ih.nodeAt ih.fileHdr.rootPage).parent = ixNoPage := by
  induction above generalizing low with
  | nil => exact h.2
  | cons up above hrec => exact hrec h.2

theorem LeafLevel.linked (h : LeafLevel cmp ih leaves) : (leaves.map Prod.snd).IsChain ih.Neighbors :=
  (List.isChain_cons.mp h.ring).2.left_of_append

/-- Each page of the ring has one before it and one behind it. -/
theorem LeafLevel.neighbors (h : LeafLevel cmp ih leaves) {p : ℤ} (hp : p ∈ ixLeafHeaderPage :: leaves.map Prod.snd) :
    (∃ q, ih.Neighbors p q) ∧ ∃ q, ih.Neighbors q p := by
  have hring := h.ring
  constructor
  · obtain ⟨a, b, hsplit⟩ := List.append_of_mem hp
    obtain ⟨q, rest, hq⟩ : ∃ q rest, b ++ [ixLeafHeaderPage] = q :: rest := by
      cases b with
      | nil => exact ⟨_, _, rfl⟩
      | cons q b => exact ⟨q, _, rfl⟩
    rw [← List.cons_append, hsplit, List.append_assoc, List.cons_append, hq, List.isChain_append_cons_cons] at hring
    exact ⟨q, hring.2.1⟩
  · have hmem : p ∈ leaves.map Prod.snd ++ [ixLeafHeaderPage] := by
      rw [List.mem_append, List.mem_singleton]
      exact (List.mem_cons.mp hp).symm
    obtain ⟨a, b, hsplit⟩ := List.append_of_mem hmem
    obtain ⟨init, q, hq⟩ : ∃ init q, ixLeafHeaderPage :: a = init ++ [q] := by
      cases List.eq_nil_or_concat' (ixLeafHeaderPage :: a) with
      | inl hnil => cases hnil
      | inr hconcat => exact hconcat
    rw [hsplit, ← List.cons_append, hq, List.append_assoc, List.singleton_append, List.isChain_append_cons_cons] at hring
    exact ⟨q, hring.2.1⟩

theorem Tree.bPlusTree [Std.TransCmp cmp] (h : Tree cmp ih leaves above) {entries : List (K × Rid)}
    (hperm : (ih.entriesOf leaves).Perm entries) : BPlusTree cmp ih above.length entries := by
  have hlevel : ih.level above.length = leaves.map Prod.snd := by
    rw [← map_separated, h.above.stacked.separated_length]
  have hmem : ∀ n ≤ above.length, ∀ p ∈ ih.level n, ∃ x ∈ ih.separated n, x.2 = p ∧
      p ∈ (leaves ++ above.flatten).map Prod.snd := by
    intro n hn p hp
    rw [← map_separated] at hp
    obtain ⟨x, hx, rfl⟩ := List.mem_map.mp hp
    exact ⟨x, hx, rfl, List.mem_map_of_mem (h.above.stacked.mem_separated hn hx)⟩
  have hpages := h.above.pages
  have hleaf : ∀ p ∈ ih.level above.length, ∃ x ∈ leaves, x.2 = p := by
    intro p hp
    rw [hlevel] at hp
    obtain ⟨x, hx, rfl⟩ := List.mem_map.mp hp
    exact ⟨x, hx, rfl⟩
  have hnodup : (ixLeafHeaderPage :: (leaves ++ above.flatten).map Prod.snd).Nodup := hpages.nodup
  have hentries : ih.entriesIn (ih.level above.length) = ih.entriesOf leaves := by rw [hlevel, entriesIn_map]
  refine
    { fetch := fun n hn p hp => ?_
      range := fun n hn p hp => ?_
      nodup := ?_
      header := ?_
      internal := fun n hn p hp => ?_
      leaf := fun p hp => ?_
      numKey := fun p hp => ?_
      keys := fun n hn p hp => ?_
      rootParent := ?_
      parent := fun n hn p hp c hc => ?_
      chain := ?_
      lastLeaf := ?_
      prevLeaf := fun p hp => ?_
      sorted := by rw [hentries]; exact h.leaf.sorted
      perm := by rw [hentries]; exact hperm
      separators := fun n hn p hp i hi => ?_ }
  · obtain ⟨x, -, -, hp⟩ := hmem n hn p hp
    have hheld := hpages.holds p (List.mem_append_right _ hp)
    exact ⟨hheld.fetchNode, hheld.pageNo⟩
  · obtain ⟨x, -, -, hp⟩ := hmem n hn p hp
    have hrange := hpages.range p (List.mem_append_right _ hp)
    have hne : ixLeafHeaderPage ≠ p := by
      rintro rfl
      exact (List.nodup_cons.mp hnodup).1 hp
    unfold ixLeafHeaderPage at hne ⊢
    omega
  · have hmap := h.above.stacked.perm.map Prod.snd
    rw [List.map_flatMap] at hmap
    have hlevels : (fun n => (ih.separated n).map Prod.snd) = ih.level := funext ih.map_separated
    rw [hlevels] at hmap
    exact hmap.nodup_iff.mpr (List.nodup_cons.mp hnodup).2
  · exact ⟨(hpages.holds _ (by simp)).fetchNode, h.leaf.header⟩
  · obtain ⟨x, hx, rfl, -⟩ := hmem n (Nat.le_of_lt hn) p hp
    exact (h.above.stacked.separated_lt hn x hx).1
  · obtain ⟨x, hx, rfl⟩ := hleaf p hp
    exact h.leaf.isLeaf x hx
  · obtain ⟨x, hx, rfl⟩ := hleaf p hp
    refine ⟨h.leaf.numKey x hx, fun hlen => h.leaf.nonempty ?_ x hx⟩
    rwa [hlevel, List.length_map] at hlen
  · obtain ⟨x, hx, rfl, -⟩ := hmem n (Nat.le_of_lt hn) p hp
    have hnext := h.above.stacked.sepSorted h.leaf.sepSorted hn
    rw [show ih.separated (n + 1) = (ih.separated n).flatMap ih.children from Levels.descend_succ n _] at hnext
    have hchildren : SepSorted cmp (ih.children x) := (List.pairwise_flatMap.mp hnext).1 x hx
    exact IxNodeHandle.SepSorted.sorted hchildren
  · exact h.above.stacked.rootParent
  · obtain ⟨x, hx, rfl, -⟩ := hmem n (Nat.le_of_lt hn) p hp
    rw [← map_children] at hc
    obtain ⟨y, hy, rfl⟩ := List.mem_map.mp hc
    exact (h.above.stacked.separated_lt hn x hx).2 y hy
  · obtain ⟨rest, hrest⟩ := h.leaf.exists_cons
    have hpagesLeaf : leaves.map Prod.snd = ih.fileHdr.firstLeaf :: rest.map Prod.snd := by rw [hrest]; rfl
    have hlen := h.above.pages.length_lt (Int.lt_trans (hpages.range _ (by simp : ixLeafHeaderPage ∈ _)).1
      (hpages.range _ (by simp : ixLeafHeaderPage ∈ _)).2)
    rw [hlevel, hpagesLeaf]
    refine leafPagesFrom_eq ?_ ?_ ?_ ?_ ?_
    · intro q hq
      rw [← hpagesLeaf] at hq
      exact hpages.holds q (List.mem_append_right _ (by rw [List.map_append]; exact List.mem_append_left _ hq))
    · rw [← hpagesLeaf]
      have := (List.nodup_cons.mp hnodup).2
      rw [List.map_append] at this
      exact (List.nodup_append.mp this).1
    · rw [← hpagesLeaf]
      exact h.leaf.linked.imp fun _ _ hlink => hlink.1
    · rw [← hpagesLeaf, List.getLast?_map]
      exact h.lastLeaf
    · rw [hrest] at hlen
      simp only [List.length_append, List.length_map, List.length_cons] at hlen ⊢
      unfold IxIndexHandle.fuel
      omega
  · obtain ⟨init, x, hsplit⟩ : ∃ init x, leaves = init ++ [x] := by
      cases List.eq_nil_or_concat' leaves with
      | inl hnil => exact absurd hnil h.ne_nil
      | inr hconcat => exact hconcat
    have hlast := h.lastLeaf
    rw [hsplit, List.getLast?_append, List.getLast?_singleton, Option.some_or, Option.map_some, Option.some.injEq] at hlast
    have hring := h.leaf.ring
    rw [hsplit, List.map_append, List.map_singleton, List.append_assoc, List.singleton_append,
      List.isChain_cons_append_cons_cons] at hring
    rw [← hlast]
    exact hring.2.1.1
  · rw [hlevel] at hp
    obtain ⟨⟨q, hnext⟩, r, hprev⟩ := h.leaf.neighbors hp
    exact ⟨by rw [hnext.1, hnext.2], by rw [hprev.2, hprev.1]⟩
  · obtain ⟨x, hx, rfl, -⟩ := hmem n (Nat.le_of_lt hn) p hp
    exact h.separators hn hx hi

/-! ### Runs of insertions -/

/-- The index that `create_index` writes is a tree without entries. -/
theorem tree_freshIndex (cmp : K → K → Ordering) (btreeOrder colTotLen : ℕ) (unique : Bool) :
    Tree cmp (freshIndex btreeOrder colTotLen unique) [(none, ixInitRootPage)] [] := by
  obtain ⟨ih, hih⟩ : ∃ ih : IxIndexHandle K, ih = freshIndex btreeOrder colTotLen unique := ⟨_, rfl⟩
  have hroot : ih.nodeAt ixInitRootPage = { emptyNode ixInitRootPage with
      isLeaf := true, prevLeaf := ixLeafHeaderPage, nextLeaf := ixLeafHeaderPage } := by
    rw [hih]
    rfl
  have hheader : ih.nodeAt ixLeafHeaderPage = { emptyNode ixLeafHeaderPage with
      isLeaf := true, prevLeaf := ixInitRootPage, nextLeaf := ixInitRootPage } := by
    rw [hih]
    rfl
  have hentries : ih.entriesOf [(none, ixInitRootPage)] = [] := by
    rw [entriesOf_cons, hroot]
    rfl
  rw [← hih]
  refine ⟨⟨⟨by rw [hih]; rfl, by rw [hih]; rfl⟩, by simp [ixLeafHeaderPage, ixInitRootPage], fun p hp => ?_, fun p hp => ?_⟩,
    ⟨fun x hx => ?_, fun x hx => ?_, fun hlen => ?_, by rw [hih]; rfl, nofun, ?_, ?_, ?_⟩, fun x hx => ?_, by rw [hih]; rfl⟩
  · simp only [List.flatten_nil, List.append_nil, List.map_cons, List.map_nil, List.mem_append, List.mem_singleton] at hp
    rw [hih]
    rcases hp with rfl | rfl
    · exact ⟨_, rfl, rfl⟩
    · exact ⟨_, rfl, rfl⟩
  · simp only [List.flatten_nil, List.append_nil, List.map_cons, List.map_nil, List.mem_append, List.mem_singleton] at hp
    rw [hih]
    rcases hp with rfl | rfl
    · change (0 : ℤ) < 1 ∧ (1 : ℤ) < 3
      omega
    · change (0 : ℤ) < 2 ∧ (2 : ℤ) < 3
      omega
  · obtain rfl := List.mem_singleton.mp hx
    rw [hroot]
  · obtain rfl := List.mem_singleton.mp hx
    rw [hroot]
    exact Nat.zero_le _
  · exact absurd hlen (Nat.lt_irrefl 1)
  · rw [hentries]
    exact .nil
  · rw [hheader]
    rfl
  · simp only [List.map_cons, List.map_nil, List.nil_append, List.cons_append, List.isChain_cons_cons, Neighbors, hroot,
      hheader]
    exact ⟨⟨trivial, trivial⟩, ⟨trivial, trivial⟩, List.isChain_singleton _⟩
  · obtain rfl := List.mem_singleton.mp hx
    rw [hroot, hih]
    exact Nat.succ_pos btreeOrder

/-- Insertions of different keys keep the tree as long as they return. -/
theorem Tree.insertEntries [Std.TransCmp cmp] (h : Tree cmp ih leaves above) (entries : List (K × Rid))
    (hd : Distinct cmp (entries ++ ih.entriesOf leaves)) :
    Ends IxError.Stops (fun ih' => ∃ leaves' above', Tree cmp ih' leaves' above' ∧
      (ih'.entriesOf leaves').Perm (entries ++ ih.entriesOf leaves)) (ih.insertEntries cmp entries) := by
  induction entries generalizing ih leaves above with
  | nil => exact ⟨leaves, above, h, .refl _⟩
  | cons e entries hrec =>
    have hnew : ∀ o ∈ ih.entriesOf leaves, cmp o.1 e.1 ≠ .eq := fun o ho heq =>
      (List.pairwise_cons.mp hd).1 o (List.mem_append_right _ ho) (Std.OrientedCmp.eq_symm heq)
    unfold IxIndexHandle.insertEntries
    rw [List.foldlM_cons]
    have hfirst : Ends IxError.Stops (fun ih' : IxIndexHandle K => ∃ leaves' above', Tree cmp ih' leaves' above' ∧
        (ih'.entriesOf leaves').Perm (e :: ih.entriesOf leaves)) (Prod.snd <$> ih.insertEntry cmp e.1 e.2) :=
      (h.insertEntry e.2 hnew).map fun r hr => hr.2
    refine hfirst.bind fun ih' h' => ?_
    obtain ⟨leaves', above', htree, hperm⟩ := h'
    have hrest : (e :: (entries ++ ih.entriesOf leaves)).Perm (entries ++ ih'.entriesOf leaves') :=
      List.perm_middle.symm.trans (hperm.symm.append_left entries)
    refine (hrec htree (hd.perm hrest)).mono fun ih'' h'' => ?_
    obtain ⟨leaves'', above'', htree'', hperm''⟩ := h''
    exact ⟨leaves'', above'', htree'', hperm''.trans hrest.symm⟩

theorem insertEntries_ends [Std.TransCmp cmp] {btreeOrder colTotLen : ℕ} {unique : Bool} {entries : List (K × Rid)}
    (hd : Distinct cmp entries) : Ends IxError.Stops (fun ih => ∃ depth, BPlusTree cmp ih depth entries)
      ((freshIndex btreeOrder colTotLen unique).insertEntries cmp entries) := by
  have hempty : (freshIndex btreeOrder colTotLen unique : IxIndexHandle K).entriesOf [(none, ixInitRootPage)] = [] := rfl
  refine ((tree_freshIndex cmp btreeOrder colTotLen unique).insertEntries entries
    (by rwa [hempty, List.append_nil])).mono fun ih h => ?_
  rw [hempty, List.append_nil] at h
  obtain ⟨leaves, above, htree, hperm⟩ := h
  exact ⟨above.length, htree.bPlusTree hperm⟩

theorem bPlusTree_of_insertEntries [Std.TransCmp cmp] {btreeOrder colTotLen : ℕ} {unique : Bool} {entries : List (K × Rid)}
    (hd : Distinct cmp entries) (hrun : (freshIndex btreeOrder colTotLen unique).insertEntries cmp entries = .ok ih) :
    ∃ depth, BPlusTree cmp ih depth entries := by
  have hends : Ends IxError.Stops _ ((freshIndex btreeOrder colTotLen unique).insertEntries cmp entries) :=
    insertEntries_ends hd
  rwa [hrun] at hends

/-- A run of insertions with pairwise distinct keys on a fresh index makes a B+tree with exactly these
entries, unless an assertion fails or a child slot is behind its page. -/
theorem insertEntries_bPlusTree [Std.TransCmp cmp] {btreeOrder colTotLen : ℕ} {unique : Bool} {entries : List (K × Rid)}
    (hd : Distinct cmp entries)
    (hassert : (freshIndex btreeOrder colTotLen unique).insertEntries cmp entries ≠ .error .assertion)
    (hpage : (freshIndex btreeOrder colTotLen unique).insertEntries cmp entries ≠ .error .outOfPage) :
    ∃ ih depth, (freshIndex btreeOrder colTotLen unique).insertEntries cmp entries = .ok ih ∧
      BPlusTree cmp ih depth entries := by
  have hends : Ends IxError.Stops _ ((freshIndex btreeOrder colTotLen unique).insertEntries cmp entries) :=
    insertEntries_ends hd
  cases hrun : (freshIndex btreeOrder colTotLen unique).insertEntries cmp entries with
  | error e =>
    rw [hrun] at hends hassert hpage
    rcases hends with rfl | rfl
    · exact absurd rfl hassert
    · exact absurd rfl hpage
  | ok ih =>
    rw [hrun] at hends
    obtain ⟨depth, htree⟩ := hends
    exact ⟨ih, depth, rfl, htree⟩

/-- Eight entries on an index of order 7, with a split of the root. -/
theorem insertEntries_bPlusTree_eight :
    ∃ ih depth, (freshIndex 7 496 true).insertEntries IxKey.cmp charEntries = .ok ih ∧
      BPlusTree IxKey.cmp ih depth charEntries := by
  obtain ⟨ih, hrun⟩ : ∃ ih, (freshIndex 7 496 true).insertEntries IxKey.cmp charEntries = .ok ih := ⟨_, rfl⟩
  exact insertEntries_bPlusTree (by unfold Distinct; decide) (by rw [hrun]; exact nofun) (by rw [hrun]; exact nofun)

end IxIndexHandle
end Rmdb
