import Rmdb.Index.Delete

/-! The index while all its entries fit in the root leaf. There it refines an association
list: every operation is computed, and the two ways out (a full leaf, an empty leaf) lose
entries. -/
namespace Rmdb
namespace IxIndexHandle

open SlotArray

variable {K : Type}

def rootLeaf (numKey : ℕ) (keys : ℕ → K) (rids : ℕ → Rid) : IxNodeHandle K where
  pageNo := ixInitRootPage
  parent := ixNoPage
  numKey := numKey
  isLeaf := true
  prevLeaf := ixLeafHeaderPage
  nextLeaf := ixLeafHeaderPage
  keys := keys
  rids := rids

section leaf
variable {cmp : K → K → Ordering} [Std.TransCmp cmp] {n : ℕ} {keys : ℕ → K} {rids : ℕ → Rid} {k : K}

/-- The lookup in a leaf goes by the entries. -/
theorem leafLookup_eq {node : IxNodeHandle K} (hleaf : node.isLeaf = true) (hs : Sorted cmp node.keys node.numKey) :
    node.leafLookup cmp k = .ok (lookup cmp (toList (fun i => (node.keys i, node.rids i)) node.numKey) k) := by
  have hle := hs.lowerBound_le k
  rw [hs.lookup_toList]
  simp only [IxNodeHandle.leafLookup, IxNodeHandle.lowerBound, hleaf, assertThat, if_true, bind, Except.bind, pure,
    Except.pure]
  by_cases hn : SlotArray.lowerBound cmp node.keys node.numKey k = node.numKey
  · simp [hn]
  · have hlt : SlotArray.lowerBound cmp node.keys node.numKey k < node.numKey := by omega
    have hcomm : cmp k (node.keys (SlotArray.lowerBound cmp node.keys node.numKey k)) = .eq ↔
        cmp (node.keys (SlotArray.lowerBound cmp node.keys node.numKey k)) k = .eq := Std.OrientedCmp.eq_comm
    by_cases hk : cmp (node.keys (SlotArray.lowerBound cmp node.keys node.numKey k)) k = .eq <;>
      simp [hn, hcomm, hk, hlt]

private theorem rootLeaf_remove_of_lookup_none (hdr : IxFileHdr) (hs : Sorted cmp keys n)
    (hk : lookup cmp (toList (fun i => (keys i, rids i)) n) k = none) :
    (rootLeaf n keys rids).remove cmp hdr k = .ok (rootLeaf n keys rids) := by
  have habsent : ¬(SlotArray.lowerBound cmp keys n k < n ∧
      cmp (keys (SlotArray.lowerBound cmp keys n k)) k = .eq) := by
    rw [hs.lookup_toList] at hk
    simpa using hk
  simp only [IxNodeHandle.remove, IxNodeHandle.lowerBound, rootLeaf, habsent, if_false]
  rfl

end leaf

variable [Inhabited K]

/-- The fresh index with other contents in its root leaf. -/
def leafIndex (btreeOrder colTotLen : ℕ) (unique : Bool) (numKey : ℕ) (keys : ℕ → K)
    (rids : ℕ → Rid) : IxIndexHandle K :=
  let fresh := freshIndex btreeOrder colTotLen unique
  { fresh with pages := Function.update fresh.pages ixInitRootPage (rootLeaf numKey keys rids) }

variable {cmp : K → K → Ordering} {btreeOrder colTotLen : ℕ} {unique transaction : Bool}
  {n : ℕ} {keys : ℕ → K} {rids : ℕ → Rid} {k : K} {v : Rid}

/-- A node of the one-leaf index is the leaf header or the root leaf. -/
private theorem freshIndex_eq_leafIndex :
    (freshIndex btreeOrder colTotLen unique : IxIndexHandle K) =
      leafIndex btreeOrder colTotLen unique 0 (fun _ => default) fun _ => ⟨0, 0⟩ := by
  simp only [leafIndex, freshIndex, IxIndexHandle.mk.injEq, true_and, and_true]
  refine (Function.update_eq_self_iff.mpr ?_).symm
  simp [rootLeaf, emptyNode, ixInitRootPage, ixLeafHeaderPage]

@[simp] theorem leafIndex_fileHdr : (leafIndex btreeOrder colTotLen unique n keys rids).fileHdr =
    (freshIndex btreeOrder colTotLen unique : IxIndexHandle K).fileHdr := rfl

@[simp] theorem leafIndex_unique :
    (leafIndex btreeOrder colTotLen unique n keys rids).unique = unique := rfl

@[simp] theorem leafIndex_maxSize :
    (leafIndex btreeOrder colTotLen unique n keys rids).fileHdr.maxSize = btreeOrder + 1 := rfl

private theorem leafIndex_writeNode {n' : ℕ} {keys' : ℕ → K} {rids' : ℕ → Rid} :
    (leafIndex btreeOrder colTotLen unique n keys rids).writeNode (rootLeaf n' keys' rids') =
      leafIndex btreeOrder colTotLen unique n' keys' rids' := by
  simp [leafIndex, writeNode, rootLeaf]

theorem leafIndex_findLeafPage :
    (leafIndex btreeOrder colTotLen unique n keys rids).findLeafPage cmp k =
      .ok (rootLeaf n keys rids) := by
  simp [findLeafPage, fuel, findLeafFrom, fetchNode, leafIndex, freshIndex, rootLeaf, bind,
    Except.bind, pure, Except.pure]

section sorted
variable [Std.TransCmp cmp]

private theorem leafIndex_getValue (hs : Sorted cmp keys n) :
    (leafIndex btreeOrder colTotLen unique n keys rids).getValue cmp k =
      .ok (lookup cmp (toList (fun i => (keys i, rids i)) n) k) := by
  simp only [getValue, leafIndex_findLeafPage, bind, Except.bind]
  exact leafLookup_eq rfl hs

private theorem rootLeaf_insert (colTotLen : ℕ) (unique : Bool) (rids : ℕ → Rid) (v : Rid)
    (hs : Sorted cmp keys n) (hn : n ≤ btreeOrder)
    (hk : lookup cmp (toList (fun i => (keys i, rids i)) n) k = none) :
    (rootLeaf n keys rids).insert cmp
        (freshIndex btreeOrder colTotLen unique : IxIndexHandle K).fileHdr k v =
      .ok (rootLeaf (n + 1) (insertAt keys n (SlotArray.lowerBound cmp keys n k) k)
        (insertAt rids n (SlotArray.lowerBound cmp keys n k) v)) := by
  have hle := hs.lowerBound_le k
  have habsent : ¬(SlotArray.lowerBound cmp keys n k < n ∧
      cmp (keys (SlotArray.lowerBound cmp keys n k)) k = .eq) := by
    rw [hs.lookup_toList] at hk
    simpa using hk
  simp only [IxNodeHandle.insert, IxNodeHandle.lowerBound, rootLeaf, habsent, if_false]
  exact IxNodeHandle.insertPairs_one hle (Nat.lt_succ_of_le hn)

end sorted

/-- A root leaf that still holds a key needs no adjustment. -/
private theorem leafIndex_afterRemove (hn : 0 < n) :
    (leafIndex btreeOrder colTotLen unique n keys rids).afterRemove transaction ixInitRootPage =
      .ok (leafIndex btreeOrder colTotLen unique n keys rids) := by
  have hn' : n ≠ 0 := Nat.pos_iff_ne_zero.mp hn
  simp [afterRemove, coalesceOrRedistribute, fuel, fetchNode, leafIndex, rootLeaf, adjustRoot, hn',
    IxNodeHandle.isRootPage, bind, Except.bind, pure, Except.pure]

/-- Emptying the root leaf takes the root page away, and no lookup works from then on. -/
private theorem leafIndex_afterRemove_zero (cmp : K → K → Ordering) (btreeOrder colTotLen : ℕ)
    (unique transaction : Bool) (keys : ℕ → K) (rids : ℕ → Rid) :
    ∃ ih', (leafIndex btreeOrder colTotLen unique 0 keys rids).afterRemove transaction
        ixInitRootPage = .ok ih' ∧ ∀ k, ih'.getValue cmp k = .error .noPage := by
  cases transaction <;>
    simp [afterRemove, coalesceOrRedistribute, fuel, fetchNode, leafIndex, rootLeaf, adjustRoot,
      IxNodeHandle.isRootPage, eraseLeaf, assertThat, updateNode, writeNode, freshIndex, emptyNode,
      setRootPage, releaseNodeHandle, IxIndexHandle.getValue, findLeafPage, findLeafFrom,
      ixInitRootPage, ixNoPage, ixLeafHeaderPage, ixInitNumPages, Function.update, bind, Except.bind,
      pure, Except.pure]

private theorem rootLeaf_remove (colTotLen : ℕ) (unique : Bool) (rids : ℕ → Rid) (hn : n ≤ btreeOrder)
    (hlt : SlotArray.lowerBound cmp keys n k < n)
    (heq : cmp (keys (SlotArray.lowerBound cmp keys n k)) k = .eq) :
    (rootLeaf n keys rids).remove cmp
        (freshIndex btreeOrder colTotLen unique : IxIndexHandle K).fileHdr k =
      .ok (rootLeaf (n - 1) (eraseAt keys n (SlotArray.lowerBound cmp keys n k))
        (eraseAt rids n (SlotArray.lowerBound cmp keys n k))) := by
  simp only [IxNodeHandle.remove, IxNodeHandle.lowerBound, rootLeaf, hlt, heq, and_self, if_true]
  exact IxNodeHandle.erasePair_eq hlt (Nat.le_succ_of_le hn)

/-- Splitting the full root leaf: the separator is the first key of the right half, and the
left half keeps the page that keys up to the separator are routed to. -/
private theorem splitFullLeaf_leafIndex (cmp : K → K → Ordering) (colTotLen : ℕ) (unique : Bool)
    (keys : ℕ → K) (rids : ℕ → Rid) (hord : 2 < btreeOrder) :
    ∃ ih' root leaf, (leafIndex btreeOrder colTotLen unique (btreeOrder + 1) keys rids).splitFullLeaf
        cmp ixInitRootPage = .ok ih' ∧ ih'.fd2pageno = 5 ∧ ih'.fileHdr.rootPage = 4 ∧
      ih'.pages 4 = some root ∧ root.isLeaf = false ∧ root.numKey = 1 ∧
      root.keys 0 = keys ((btreeOrder + 1 + 1) / 2) ∧ root.valueAt 0 = ixInitRootPage ∧
      ih'.pages ixInitRootPage = some leaf ∧ leaf.isLeaf = true ∧
      leaf.numKey = (btreeOrder + 1 + 1) / 2 ∧ leaf.keys = keys := by
  have hsp : (btreeOrder + 1 + 1) / 2 < btreeOrder + 1 := by omega
  obtain ⟨newLeaf, hins, hno, hkey⟩ : ∃ newLeaf : IxNodeHandle K,
      ({ (emptyNode 3 : IxNodeHandle K) with isLeaf := true, numKey := 0, parent := ixNoPage }).insertPairs
        { (freshIndex btreeOrder colTotLen unique : IxIndexHandle K).fileHdr with numPages := 4 } 0
        (fun i => keys ((btreeOrder + 1 + 1) / 2 + i)) (fun i => rids ((btreeOrder + 1 + 1) / 2 + i))
        (btreeOrder + 1 - (btreeOrder + 1 + 1) / 2) = .ok newLeaf ∧ newLeaf.pageNo = 3 ∧
      newLeaf.keys 0 = keys ((btreeOrder + 1 + 1) / 2) := by
    refine ⟨_, IxNodeHandle.insertPairs_eq (Nat.zero_le _) ?_, rfl, ?_⟩
    · simp only [IxFileHdr.maxSize, freshIndex]
      omega
    · have hpos : 0 < btreeOrder + 1 - (btreeOrder + 1 + 1) / 2 := by omega
      simp [insertMany, hpos, Nat.pos_iff_ne_zero.mp hpos]
  simp [splitFullLeaf, split, createNode, fetchNode, leafIndex, freshIndex, writeNode, emptyNode,
    rootLeaf, splitLeaf, assertThat, IxFileHdr.maxSize, hsp, updateNode, insertIntoParent, growRoot,
    fuel, IxNodeHandle.isRootPage, ixInitRootPage, ixLeafHeaderPage, ixNoPage, ixInitNumPages,
    bind, Except.bind, pure, Except.pure] at hins ⊢
  simp [hins, hno, hkey, setRootPage, setLastLeaf, IxNodeHandle.valueAt, Function.update]

/-! ### The one-leaf index as an association list -/

/-- The index is in its root leaf and holds exactly the entries of `l`. -/
def Represents (cmp : K → K → Ordering) (btreeOrder colTotLen : ℕ) (unique : Bool)
    (ih : IxIndexHandle K) (l : List (K × Rid)) : Prop :=
  ∃ n keys rids, ih = leafIndex btreeOrder colTotLen unique n keys rids ∧ Sorted cmp keys n ∧
    (toList (fun i => (keys i, rids i)) n).Perm l

variable {ih ih' : IxIndexHandle K} {l : List (K × Rid)}

theorem represents_fresh (cmp : K → K → Ordering) (btreeOrder colTotLen : ℕ) (unique : Bool) :
    Represents cmp btreeOrder colTotLen unique (freshIndex btreeOrder colTotLen unique) [] :=
  ⟨0, _, _, freshIndex_eq_leafIndex, fun _ _ _ h => absurd h (Nat.not_lt_zero _), .refl _⟩

section represents
variable [Std.TransCmp cmp]

theorem Represents.distinct (h : Represents cmp btreeOrder colTotLen unique ih l) :
    Distinct cmp l := by
  obtain ⟨n, keys, rids, -, hs, hp⟩ := h
  exact hs.distinct.perm hp

theorem Represents.getValue (h : Represents cmp btreeOrder colTotLen unique ih l) (k : K) :
    ih.getValue cmp k = .ok (lookup cmp l k) := by
  obtain ⟨n, keys, rids, rfl, hs, hp⟩ := h
  rw [leafIndex_getValue hs, hs.distinct.lookup_perm hp]

/-- An insertion below the order stays in the root leaf and adds its entry. -/
theorem Represents.insertEntry (h : Represents cmp btreeOrder colTotLen unique ih l)
    (hk : lookup cmp l k = none) (hl : l.length < btreeOrder) :
    ∃ ih', ih.insertEntry cmp k v = .ok (ixInitRootPage, ih') ∧
      Represents cmp btreeOrder colTotLen unique ih' ((k, v) :: l) := by
  have hget := h.getValue k
  obtain ⟨n, keys, rids, rfl, hs, hp⟩ := h
  have hn : n = l.length := by simpa using hp.length_eq
  have hk' : lookup cmp (toList (fun i => (keys i, rids i)) n) k = none := by
    rw [hs.distinct.lookup_perm hp, hk]
  have hpos := hs.lowerBound_le k
  refine ⟨_, ?_, n + 1, _, _, rfl, hs.insertAt (k := k) fun i hi hik => ?_,
    (toList_insertAt_pairs keys rids k v hpos).trans (hp.cons _)⟩
  · rw [hk] at hget
    simp only [IxIndexHandle.insertEntry, hget, leafIndex_findLeafPage, leafIndex_fileHdr, bind,
      Except.bind]
    rw [rootLeaf_insert _ _ _ _ hs (by omega) hk']
    simp only [leafIndex_writeNode, pure, Except.pure]
    cases unique <;> simp [rootLeaf, IxFileHdr.maxSize, freshIndex] <;> omega
  · exact lookup_eq_none.mp hk' _ (mem_toList.mpr ⟨i, hi, rfl⟩) hik

/-- The first insertion past the order loses the key it makes a separator: lookups of it are
sent to the left half. -/
theorem Represents.insertEntry_full (h : Represents cmp btreeOrder colTotLen unique ih l)
    (hord : 2 < btreeOrder) (hk : lookup cmp l k = none) (hl : l.length = btreeOrder) :
    ∃ p ih' e, ih.insertEntry cmp k v = .ok (p, ih') ∧ e ∈ (k, v) :: l ∧
      ih'.getValue cmp e.1 = .ok none := by
  have hget := h.getValue k
  obtain ⟨n, keys, rids, rfl, hs, hp⟩ := h
  obtain rfl : n = btreeOrder := by simpa [hl] using hp.length_eq
  have hk' : lookup cmp (toList (fun i => (keys i, rids i)) n) k = none := by
    rw [hs.distinct.lookup_perm hp, hk]
  have hpos := hs.lowerBound_le k
  have hs' : Sorted cmp (insertAt keys n (SlotArray.lowerBound cmp keys n k) k) (n + 1) :=
    hs.insertAt fun i hi hik => lookup_eq_none.mp hk' _ (mem_toList.mpr ⟨i, hi, rfl⟩) hik
  have hp' := (toList_insertAt_pairs keys rids k v hpos).trans (hp.cons (k, v))
  have hins := rootLeaf_insert colTotLen unique rids v hs (Nat.le_refl n) hk'
  -- The leaf is full after the insertion and is split at the middle.
  generalize insertAt keys n (SlotArray.lowerBound cmp keys n k) k = keys' at hs' hp' hins
  generalize insertAt rids n (SlotArray.lowerBound cmp keys n k) v = rids' at hp' hins
  obtain ⟨ih', root, leaf, hsplit, hfd, hroot, hpr, hri, hrn, hrk, hrv, hpl, hli, hln, hlk⟩ :=
    splitFullLeaf_leafIndex cmp colTotLen unique keys' rids' hord
  have hsp : (n + 1 + 1) / 2 < n + 1 := by omega
  refine ⟨ixInitRootPage, ih', (keys' ((n + 1 + 1) / 2), rids' ((n + 1 + 1) / 2)), ?_,
    hp'.mem_iff.mp (mem_toList.mpr ⟨_, hsp, rfl⟩), ?_⟩
  · rw [hk] at hget
    simp only [IxIndexHandle.insertEntry, hget, leafIndex_findLeafPage, leafIndex_fileHdr, hins, bind,
      Except.bind, leafIndex_writeNode, pure, Except.pure]
    cases unique <;> simp [rootLeaf, IxFileHdr.maxSize, freshIndex] <;> simp [hsplit]
  · -- At the root the separator is not below itself, so the walk goes to the left child,
    -- where all keys are below it.
    have hr : root.lowerBound cmp (keys' ((n + 1 + 1) / 2)) = 0 := by
      simp [IxNodeHandle.lowerBound, SlotArray.lowerBound, Bisect.search, hrn, hrk, Std.ReflCmp.compare_self]
    have hll : leaf.lowerBound cmp (keys' ((n + 1 + 1) / 2)) = leaf.numKey := by
      rw [IxNodeHandle.lowerBound, hlk, hln]
      exact (hs'.mono (Nat.le_of_lt hsp)).lowerBound_eq (Nat.le_refl _) (fun i hi => hs' i _ hi hsp) (by omega)
    simp [IxIndexHandle.getValue, findLeafPage, fuel, hfd, findLeafFrom, fetchNode, hroot, hpr, hri,
      IxNodeHandle.internalLookup, hr, hrv, hpl, hli, IxNodeHandle.leafLookup, hll, assertThat, bind,
      Except.bind, pure, Except.pure]

/-- A deletion that leaves an entry behind removes exactly its own. -/
theorem Represents.deleteEntry (transaction : Bool)
    (h : Represents cmp btreeOrder colTotLen unique ih l)
    (hk : lookup cmp l k = some v) (hl : l.length ≤ btreeOrder) (hl' : 1 < l.length) :
    ∃ ih', ih.deleteEntry cmp transaction k = .ok (true, ih') ∧
      Represents cmp btreeOrder colTotLen unique ih' (erase cmp l k) := by
  obtain ⟨n, keys, rids, rfl, hs, hp⟩ := h
  obtain rfl : n = l.length := by simpa using hp.length_eq
  rw [← hs.distinct.lookup_perm hp, hs.lookup_toList] at hk
  split at hk
  case isFalse => cases hk
  rename_i hpos
  have hp' := (toList_eraseAt_pairs keys rids hpos.1).trans hp
  have hrm := rootLeaf_remove colTotLen unique rids hl
    hpos.1 hpos.2
  refine ⟨_, ?_, l.length - 1, _, eraseAt rids l.length (SlotArray.lowerBound cmp keys l.length k),
    rfl, hs.eraseAt (SlotArray.lowerBound cmp keys l.length k), ?_⟩
  · simp only [IxIndexHandle.deleteEntry, leafIndex_findLeafPage, leafIndex_fileHdr, hrm, bind,
      Except.bind, leafIndex_writeNode]
    have hlt : l.length - 1 < l.length := by omega
    simp [rootLeaf, hlt, leafIndex_afterRemove (show 0 < l.length - 1 by omega), pure, Except.pure]
  · rw [← erase_cons_self (e := (keys _, rids _)) (hs.distinct.perm hp |>.perm hp'.symm) hpos.2]
    exact erase_perm hp' k

theorem Represents.deleteEntry_absent (transaction : Bool)
    (h : Represents cmp btreeOrder colTotLen unique ih l)
    (hk : lookup cmp l k = none) : ih.deleteEntry cmp transaction k = .ok (false, ih) := by
  obtain ⟨n, keys, rids, rfl, hs, hp⟩ := h
  rw [← hs.distinct.lookup_perm hp] at hk
  simp [IxIndexHandle.deleteEntry, leafIndex_findLeafPage, rootLeaf_remove_of_lookup_none _ hs hk,
    leafIndex_writeNode, bind, Except.bind, pure, Except.pure]

/-- Deleting the only entry leaves an index that answers no lookup. -/
theorem Represents.deleteEntry_last (transaction : Bool)
    (h : Represents cmp btreeOrder colTotLen unique ih l)
    (hk : lookup cmp l k = some v) (hl : l.length = 1) (hord : 2 < btreeOrder) :
    ∃ ih', ih.deleteEntry cmp transaction k = .ok (true, ih') ∧
      ∀ k, ih'.getValue cmp k = .error .noPage := by
  obtain ⟨n, keys, rids, rfl, hs, hp⟩ := h
  obtain rfl : n = 1 := by simpa [hl] using hp.length_eq
  rw [← hs.distinct.lookup_perm hp, hs.lookup_toList] at hk
  split at hk
  case isFalse => cases hk
  rename_i hpos
  have hrm := rootLeaf_remove colTotLen unique rids
    (show 1 ≤ btreeOrder by omega) hpos.1 hpos.2
  obtain ⟨ih', hafter, hget⟩ := leafIndex_afterRemove_zero cmp btreeOrder colTotLen unique
    transaction (eraseAt keys 1 (SlotArray.lowerBound cmp keys 1 k))
    (eraseAt rids 1 (SlotArray.lowerBound cmp keys 1 k))
  refine ⟨ih', ?_, hget⟩
  simp only [IxIndexHandle.deleteEntry, leafIndex_findLeafPage, leafIndex_fileHdr, hrm, bind,
    Except.bind, leafIndex_writeNode]
  simp [rootLeaf, hafter, pure, Except.pure]

end represents
end IxIndexHandle
end Rmdb
