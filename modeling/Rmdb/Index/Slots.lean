import Rmdb.Index.BPlusTree
import Rmdb.Lib.Runs

/-! The slots of the key and child arrays that `insert_entry` reads and writes. An operation that an
assertion stops is given the slots it was about to use. -/
namespace Rmdb

open SlotArray Program

namespace IxNodeHandle

variable {K : Type} (cmp : K → K → Ordering) (node : IxNodeHandle K)

/-- The keys that the binary search for `target` looks at. -/
def lowerBoundSlots (target : K) : List ℕ :=
  Bisect.probes (fun i => (cmp (node.keys i) target).isLT) node.numKey 0 node.numKey

def leafLookupSlots (key : K) : List ℕ :=
  node.lowerBoundSlots cmp key ++
    if node.lowerBound cmp key = node.numKey then [] else [node.lowerBound cmp key]

def internalLookupSlots (key : K) : List ℕ := node.lowerBoundSlots cmp key ++ [node.lowerBound cmp key]

/-- The pairs from `pos` on move up by `n` slots and leave room for the new ones. -/
def insertPairsSlots (pos n : ℕ) : List ℕ :=
  (List.range' pos (node.numKey - pos)).flatMap (fun i => [i, i + n]) ++ List.range' pos n

def insertSlots (key : K) : List ℕ :=
  let pos := node.lowerBound cmp key
  node.lowerBoundSlots cmp key ++ (if pos < node.numKey then [pos] else []) ++
    if pos < node.numKey ∧ cmp (node.keys pos) key = .eq then [] else node.insertPairsSlots pos 1

/-- The keys from `keyIdx` on and the children behind them move up by one slot. -/
def insertPairSlots (keyIdx : ℕ) : List ℕ :=
  (List.range' keyIdx (node.numKey - keyIdx)).flatMap (fun i => [i, i + 1]) ++
    (List.range' (keyIdx + 1) (node.numKey - keyIdx)).flatMap (fun i => [i, i + 1]) ++ [keyIdx, keyIdx + 1]

/-- The right half of the leaf goes to the first slots of the new one. -/
def splitLeafSlots : List ℕ :=
  let splitPoint := (node.numKey + 1) / 2
  List.range' splitPoint (node.numKey - splitPoint) ++ List.range (node.numKey - splitPoint)

def splitInternalSlots : List ℕ :=
  let middleIdx := node.numKey / 2
  let ridMoveCount := node.numKey - middleIdx - 1 + 1
  List.range' (middleIdx + 1) ridMoveCount ++ List.range ridMoveCount

section
variable {cmp node} {key : K} {pos keyIdx i : ℕ}

theorem lowerBound_le_numKey (cmp : K → K → Ordering) (node : IxNodeHandle K) (key : K) :
    node.lowerBound cmp key ≤ node.numKey := Bisect.search_le_right (Nat.zero_le _)

theorem lt_of_mem_lowerBoundSlots (hi : i ∈ node.lowerBoundSlots cmp key) : i < node.numKey :=
  Bisect.lt_of_mem_probes hi

theorem lt_of_mem_leafLookupSlots (hi : i ∈ node.leafLookupSlots cmp key) : i < node.numKey := by
  have hle := lowerBound_le_numKey cmp node key
  unfold leafLookupSlots at hi
  cases List.mem_append.mp hi with
  | inl hi => exact lt_of_mem_lowerBoundSlots hi
  | inr hi =>
    split at hi
    · cases hi
    · rw [List.mem_singleton.mp hi]
      omega

theorem le_of_mem_internalLookupSlots (hi : i ∈ node.internalLookupSlots cmp key) : i ≤ node.numKey := by
  cases List.mem_append.mp hi with
  | inl hi => exact Nat.le_of_lt (lt_of_mem_lowerBoundSlots hi)
  | inr hi =>
    rw [List.mem_singleton.mp hi]
    exact lowerBound_le_numKey cmp node key

/-- Moving the slots from `a` up to `b` by `n` stays below `b + n`. -/
theorem lt_of_mem_moved {a b n : ℕ} (hi : i ∈ (List.range' a (b - a)).flatMap fun j => [j, j + n]) : i < b + n := by
  obtain ⟨j, hj, hij⟩ := List.mem_flatMap.mp hi
  have hlt := List.mem_range'_1.mp hj
  rw [List.mem_cons, List.mem_singleton] at hij
  omega

theorem lt_of_mem_insertPairsSlots {n : ℕ} (hpos : pos ≤ node.numKey) (hi : i ∈ node.insertPairsSlots pos n) :
    i < node.numKey + n := by
  cases List.mem_append.mp hi with
  | inl hi => exact lt_of_mem_moved hi
  | inr hi =>
    have hlt := (List.mem_range'_1.mp hi).2
    omega

theorem le_of_mem_insertSlots (hi : i ∈ node.insertSlots cmp key) : i ≤ node.numKey := by
  unfold insertSlots at hi
  dsimp only at hi
  rw [List.mem_append, List.mem_append] at hi
  rcases hi with (hi | hi) | hi
  · exact Nat.le_of_lt (lt_of_mem_lowerBoundSlots hi)
  · split at hi
    · rename_i hlt
      rw [List.mem_singleton.mp hi]
      exact Nat.le_of_lt hlt
    · cases hi
  · split at hi
    · cases hi
    · exact Nat.le_of_lt_succ (lt_of_mem_insertPairsSlots (lowerBound_le_numKey cmp node key) hi)

theorem le_of_mem_insertPairSlots (hidx : keyIdx ≤ node.numKey) (hi : i ∈ node.insertPairSlots keyIdx) :
    i ≤ node.numKey + 1 := by
  unfold insertPairSlots at hi
  rw [List.mem_append, List.mem_append] at hi
  rcases hi with (hi | hi) | hi
  · exact Nat.le_of_lt (lt_of_mem_moved hi)
  · rw [show node.numKey - keyIdx = (node.numKey + 1) - (keyIdx + 1) by omega] at hi
    exact Nat.le_of_lt_succ (lt_of_mem_moved hi)
  · rw [List.mem_cons, List.mem_singleton] at hi
    omega

/-- Wherever the key goes, one more child slot comes into use. -/
theorem mem_insertPairSlots (hidx : keyIdx ≤ node.numKey) : node.numKey + 1 ∈ node.insertPairSlots keyIdx := by
  unfold insertPairSlots
  rcases Nat.lt_or_eq_of_le hidx with hlt | rfl
  · refine List.mem_append_left _ (List.mem_append_right _ (List.mem_flatMap.mpr ⟨node.numKey, ?_, by simp⟩))
    exact List.mem_range'_1.mpr ⟨hlt, by omega⟩
  · simp

theorem lt_of_mem_splitLeafSlots (hi : i ∈ node.splitLeafSlots) : i < node.numKey := by
  unfold splitLeafSlots at hi
  cases List.mem_append.mp hi with
  | inl hi =>
    have hlt := List.mem_range'_1.mp hi
    omega
  | inr hi =>
    have hlt := List.mem_range.mp hi
    omega

end
end IxNodeHandle

/-- The pairs of a full node lie on its page. -/
structure IxFileHdr.Fits (hdr : IxFileHdr) : Prop where
  size : 3 < hdr.maxSize
  page : ixPageHdrSize + hdr.keysSize + hdr.maxSize * ridSize ≤ pageSize

namespace IxIndexHandle

variable {K : Type} [Inhabited K] (cmp : K → K → Ordering) (ih : IxIndexHandle K)

/-- What is done with the result of a step that has not failed. -/
def slotsOf {α : Type} (x : Except IxError α) (slots : α → List ℕ) : List ℕ :=
  match x with
  | .ok a => slots a
  | .error _ => []

omit [Inhabited K] in
@[simp] theorem slotsOf_ok {α : Type} (a : α) (slots : α → List ℕ) : slotsOf (.ok a) slots = slots a := rfl

def findLeafSlots (key : K) : ℕ → ℤ → List ℕ
  | 0, _ => []
  | fuel + 1, pageNo =>
    slotsOf (ih.fetchNode pageNo) fun node =>
      if node.isLeaf then []
      else node.internalLookupSlots cmp key ++
        slotsOf (node.internalLookup cmp key) fun child => findLeafSlots key fuel child

def findLeafPageSlots (key : K) : List ℕ := ih.findLeafSlots cmp key ih.fuel ih.fileHdr.rootPage

def getValueSlots (key : K) : List ℕ :=
  ih.findLeafPageSlots cmp key ++ slotsOf (ih.findLeafPage cmp key) fun leaf => leaf.leafLookupSlots cmp key

def splitSlots (pageNo : ℤ) : List ℕ :=
  slotsOf (ih.fetchNode pageNo) fun node => if node.isLeaf then node.splitLeafSlots else node.splitInternalSlots

def insertIntoParentSlots : ℕ → IxIndexHandle K → ℤ → K → ℤ → List ℕ
  | 0, _, _, _, _ => []
  | fuel + 1, ih, oldNode, key, newNode =>
    slotsOf (ih.fetchNode oldNode) fun old =>
      if old.isRootPage then
        -- the key and the two children of the new root
        [0, 1]
      else
        slotsOf (ih.fetchNode old.parent) fun parent =>
          let pos := parent.lowerBound cmp key
          parent.lowerBoundSlots cmp key ++ parent.insertPairSlots pos ++
            slotsOf (parent.insertPair ih.fileHdr pos key newNode) fun parent =>
              let ih := ih.writeNode parent
              if parent.numKey = ih.fileHdr.maxSize then
                parent.numKey / 2 :: ih.splitSlots parent.pageNo ++
                  slotsOf (ih.split parent.pageNo) fun r =>
                    insertIntoParentSlots fuel r.2 parent.pageNo (parent.keys (parent.numKey / 2)) r.1
              else []

def splitFullLeafSlots (leafPageNo : ℤ) : List ℕ :=
  ih.splitSlots leafPageNo ++
    slotsOf (ih.split leafPageNo) fun r =>
      slotsOf (r.2.fetchNode r.1) fun newLeaf =>
        0 :: insertIntoParentSlots cmp r.2.fuel r.2 leafPageNo (newLeaf.keys 0) r.1

def insertEntrySlots (key : K) (value : Rid) : List ℕ :=
  (if ih.unique then ih.getValueSlots cmp key else []) ++
    slotsOf (if ih.unique then ih.getValue cmp key else .ok none) fun found =>
      if found.isSome then []
      else
        ih.findLeafPageSlots cmp key ++
          slotsOf (ih.findLeafPage cmp key) fun leaf =>
            leaf.insertSlots cmp key ++
              slotsOf (leaf.insert cmp ih.fileHdr key value) fun leaf =>
                if leaf.numKey = ih.fileHdr.maxSize then (ih.writeNode leaf).splitFullLeafSlots cmp leaf.pageNo
                else []

/-- No assertion fails, and the call stays in the slots that a node has. -/
def Inside (e : K × Rid) : Prop :=
  ih.insertEntry cmp e.1 e.2 ≠ .error .assertion ∧ ∀ i ∈ ih.insertEntrySlots cmp e.1 e.2, i < ih.fileHdr.maxSize

/-- The parent of the leaf has room for two more children, or for one more and the leaf is not its last
child. A root needs no room. -/
def ParentRoom (leaf : IxNodeHandle K) : Prop :=
  ∀ parent, ¬leaf.isRootPage → ih.fetchNode leaf.parent = .ok parent → parent.numKey + 2 < ih.fileHdr.maxSize ∨
    parent.numKey + 2 = ih.fileHdr.maxSize ∧ parent.valueAt parent.numKey ≠ leaf.pageNo

/-- If the key fills its leaf, there is room in the parent. -/
def Room (e : K × Rid) : Prop :=
  ∀ leaf, ih.findLeafPage cmp e.1 = .ok leaf → leaf.numKey + 1 = ih.fileHdr.maxSize → ih.ParentRoom leaf

variable {cmp ih} {ih' : IxIndexHandle K} {p q : ℤ} {node : IxNodeHandle K} {key : K} {value : Rid} {i m fuel : ℕ}

omit [Inhabited K] in
theorem mem_slotsOf {α : Type} {x : Except IxError α} {slots : α → List ℕ} :
    i ∈ slotsOf x slots ↔ ∃ a, x = .ok a ∧ i ∈ slots a := by
  cases x with
  | ok a => simp
  | error e => simp [slotsOf]

theorem nodeAt_of_fetchNode (h : ih.fetchNode p = .ok node) : ih.nodeAt p = node := by
  unfold IxIndexHandle.fetchNode at h
  unfold nodeAt
  split at h
  · rename_i hpage
    rw [hpage]
    exact Except.ok.inj h
  · cases h

/-! ### A header and nodes with room -/

structure Fits (ih : IxIndexHandle K) : Prop where
  header : ih.fileHdr.Fits
  numKey : ∀ p, (ih.nodeAt p).numKey < ih.fileHdr.maxSize

omit [Inhabited K] in
theorem fits_extends (h : ih.fileHdr.Fits) (hext : Extends ih ih')
    (hcol : ih'.fileHdr.colTotLen = ih.fileHdr.colTotLen) : ih'.fileHdr.Fits := by
  have hkeys : ih'.fileHdr.keysSize = ih.fileHdr.keysSize := by
    unfold IxFileHdr.keysSize
    rw [hcol, hext.btreeOrder]
  constructor
  · rw [hext.maxSize]
    exact h.size
  · rw [hext.maxSize, hkeys]
    exact h.page

/-- The order of `create_index` is the largest one for which the pairs lie on the page. -/
theorem fits_freshIndex {colTotLen : ℕ} {unique : Bool} {index : IxIndexHandle K}
    (h : createIndex colTotLen unique = .ok index) : Fits index := by
  unfold createIndex at h
  split at h
  · cases h
  · obtain ⟨_, hassert, h⟩ := bind_eq_ok.mp h
    have horder : 2 < btreeOrderOf colTotLen := by
      unfold assertThat at hassert
      split at hassert
      · assumption
      · cases hassert
    cases h
    refine ⟨⟨?_, ?_⟩, fun p => ?_⟩
    · unfold IxFileHdr.maxSize freshIndex
      dsimp only
      omega
    · have hmul : (btreeOrderOf colTotLen + 1) * (colTotLen + ridSize) ≤ pageSize - ixPageHdrSize := by
        have hle : btreeOrderOf colTotLen + 1 ≤ (pageSize - ixPageHdrSize) / (colTotLen + ridSize) := by
          unfold btreeOrderOf at horder ⊢
          omega
        exact (Nat.mul_le_mul_right _ hle).trans (Nat.div_mul_le_self _ _)
      rw [Nat.mul_add] at hmul
      unfold IxFileHdr.maxSize IxFileHdr.keysSize freshIndex
      dsimp only
      have hpage : ixPageHdrSize ≤ pageSize := by decide
      omega
    · have hzero : ((freshIndex (btreeOrderOf colTotLen) colTotLen unique : IxIndexHandle K).nodeAt p).numKey = 0 := by
        unfold nodeAt freshIndex
        dsimp only
        split
        · rfl
        · split <;> rfl
      rw [hzero]
      exact Nat.succ_pos _

theorem findLeafSlots_lt (h : ∀ p, (ih.nodeAt p).numKey < m) (hi : i ∈ ih.findLeafSlots cmp key fuel p) : i < m := by
  induction fuel generalizing p with
  | zero => cases hi
  | succ fuel hrec =>
    obtain ⟨node, hfetch, hi⟩ := mem_slotsOf.mp hi
    have hnum := h p
    rw [nodeAt_of_fetchNode hfetch] at hnum
    split at hi
    · cases hi
    · cases List.mem_append.mp hi with
      | inl hi => exact Nat.lt_of_le_of_lt (IxNodeHandle.le_of_mem_internalLookupSlots hi) hnum
      | inr hi =>
        obtain ⟨child, -, hi⟩ := mem_slotsOf.mp hi
        exact hrec hi

/-! ### The split of a full leaf -/

omit [Inhabited K] in
theorem updateNode_fileHdr {f : IxNodeHandle K → IxNodeHandle K} (h : ih.updateNode p f = .ok ih') :
    ih'.fileHdr = ih.fileHdr := by
  obtain ⟨node, -, h⟩ := bind_eq_ok.mp h
  cases h
  rfl

theorem splitLeaf_ok (newNode : IxNodeHandle K) (hnode : ih.Holds node.pageNo) (hnext : ih.Holds node.nextLeaf)
    (hne : node.nextLeaf ≠ ixNoPage) (hnew : newNode.numKey = 0) (hfull : node.numKey = ih.fileHdr.maxSize)
    (hsize : 1 < ih.fileHdr.maxSize) : ∃ ih', ih.splitLeaf node newNode = .ok ih' ∧ ih'.fileHdr = ih.fileHdr := by
  have hpoint : (node.numKey + 1) / 2 < ih.fileHdr.maxSize := by omega
  have hmove : newNode.numKey + (node.numKey - (node.numKey + 1) / 2) ≤ ih.fileHdr.maxSize := by omega
  obtain ⟨right, hright⟩ : ∃ right, newNode.insertPairs ih.fileHdr 0 (fun i => node.keys ((node.numKey + 1) / 2 + i))
      (fun i => node.rids ((node.numKey + 1) / 2 + i)) (node.numKey - (node.numKey + 1) / 2) = .ok right :=
    ⟨_, IxNodeHandle.insertPairs_eq (Nat.zero_le _) hmove⟩
  obtain ⟨ih₁, hih₁⟩ : ∃ ih₁, ih₁ = (ih.writeNode { right with prevLeaf := node.pageNo, nextLeaf := node.nextLeaf }).writeNode
      { node with numKey := (node.numKey + 1) / 2 } := ⟨_, rfl⟩
  have hext₁ : Extends ih ih₁ := hih₁ ▸ extends_writeNode.trans extends_writeNode
  have hhdr₁ : ih₁.fileHdr = ih.fileHdr := hih₁ ▸ rfl
  obtain ⟨ih₂, hupdate₂, hext₂, hhdr₂, -⟩ := updateNode_eq (hext₁.holds _ hnext)
    (f := fun next => { next with prevLeaf := right.pageNo }) fun _ => rfl
  obtain ⟨ih₃, hupdate₃, -, hhdr₃, -⟩ := updateNode_eq (hext₂.holds _ (hext₁.holds _ hnode))
    (f := fun node => { node with nextLeaf := right.pageNo }) fun _ => rfl
  refine ⟨ih₃, ?_, hhdr₃.trans (hhdr₂.trans hhdr₁)⟩
  unfold splitLeaf
  refine bind_eq_ok.mpr ⟨(), assertThat_of hpoint, bind_eq_ok.mpr ⟨right, hright, ?_⟩⟩
  dsimp only
  rw [if_pos hne]
  subst hih₁
  exact bind_eq_ok.mpr ⟨ih₂, hupdate₂, hupdate₃⟩

/-- The split of a full leaf on the level of the pages. -/
theorem split_leaf_fits (hheader : ih.fileHdr.Fits) (hp : ih.Holds p) (hlt : p ≠ ih.fd2pageno)
    (hleaf : (ih.nodeAt p).isLeaf = true) (hnext : ih.Holds (ih.nodeAt p).nextLeaf) (hne : (ih.nodeAt p).nextLeaf ≠ ixNoPage)
    (hself : (ih.nodeAt p).nextLeaf ≠ p) (hnextlt : (ih.nodeAt p).nextLeaf ≠ ih.fd2pageno)
    (hfull : (ih.nodeAt p).numKey = ih.fileHdr.maxSize)
    (hothers : ∀ q, q ≠ p → (ih.nodeAt q).numKey < ih.fileHdr.maxSize) :
    ∃ r, ih.split p = .ok r ∧ Fits r.2 ∧ (r.2.nodeAt p).parent = (ih.nodeAt p).parent := by
  have hsize := hheader.size
  have hsize' : 1 < ih.createNode.2.fileHdr.maxSize := by
    rw [extends_createNode.maxSize]
    omega
  have hheld : ih.createNode.2.Holds (ih.nodeAt p).pageNo := by
    rw [hp.pageNo]
    exact extends_createNode.holds p hp
  obtain ⟨ih', hsplit, hhdr⟩ := splitLeaf_ok { (emptyNode ih.fd2pageno : IxNodeHandle K) with
      isLeaf := (ih.nodeAt p).isLeaf, parent := (ih.nodeAt p).parent } hheld (extends_createNode.holds _ hnext) hne rfl
    (by rw [hfull, extends_createNode.maxSize]) hsize'
  have hrun : ih.split p = .ok (ih.fd2pageno, ih') := by
    rw [split_eq hp hlt, if_pos hleaf, hsplit]
    rfl
  have hends := split_leaf_ends hp hlt hleaf hnext hne hself hnextlt
  rw [hrun] at hends
  obtain ⟨-, hext, -, hpoint, right, hpage, hright, hpages⟩ := hends
  have hext' := extends_createNode.trans hext
  have hcol : ih'.fileHdr.colTotLen = ih.fileHdr.colTotLen := by
    rw [hhdr]
    rfl
  change ih'.nodeAt = _ at hpages
  have hparent : (ih'.nodeAt p).parent = (ih.nodeAt p).parent := by
    rw [hpages, leafSplitPages, hp.pageNo, Function.update_self]
  refine ⟨_, hrun, ⟨fits_extends hheader hext' hcol, fun q => ?_⟩, hparent⟩
  rw [hext'.maxSize]
  change (ih'.nodeAt q).numKey < _
  rw [hpages, leafSplitPages]
  by_cases hqp : q = (ih.nodeAt p).pageNo
  · rw [hqp, Function.update_self]
    exact hpoint
  · rw [Function.update_of_ne hqp]
    by_cases hqn : q = (ih.nodeAt p).nextLeaf
    · rw [hqn, Function.update_self]
      exact hothers _ hself
    · rw [Function.update_of_ne hqn]
      by_cases hqr : q = right.pageNo
      · rw [hqr, Function.update_self, hright.numKey]
        omega
      · rw [Function.update_of_ne hqr]
        refine hothers q ?_
        rw [← hp.pageNo]
        exact hqp

/-! ### The parent of a full leaf -/

omit [Inhabited K] in
theorem insertPair_ok {hdr : IxFileHdr} {pos : ℕ} (key : K) (q : ℤ) (hhdr : hdr.Fits) (hleaf : node.isLeaf = false)
    (hpos : pos ≤ node.numKey)
    (hnum : node.numKey + 2 ≤ hdr.maxSize) (hslot : pos + 2 < hdr.maxSize) : ∃ node',
      node.insertPair hdr pos key q = .ok node' ∧ node'.numKey = node.numKey + 1 ∧ node'.pageNo = node.pageNo := by
  have hpage : ¬pageSize < ixPageHdrSize + hdr.keysSize + (node.numKey + 2) * ridSize := by
    have hmul := Nat.mul_le_mul_right ridSize hnum
    have := hhdr.page
    omega
  refine ⟨{ node with
    keys := insertAt node.keys node.numKey pos key
    rids := insertAt node.rids (node.numKey + 1) (pos + 1) { node.rids (pos + 1) with pageNo := q }
    numKey := node.numKey + 1 }, ?_, rfl, rfl⟩
  unfold IxNodeHandle.insertPair
  rw [assertThat_of hleaf, assertThat_of hpos, assertThat_of hslot, if_neg hpage]
  rfl

omit [Inhabited K] in
/-- Behind the last child the assertion on the child slot fails one insertion before the node is full. -/
theorem insertPair_assertion {hdr : IxFileHdr} {pos : ℕ} (hleaf : node.isLeaf = false) (hpos : pos ≤ node.numKey)
    (hslot : hdr.maxSize ≤ pos + 2) : node.insertPair hdr pos key q = .error .assertion := by
  unfold IxNodeHandle.insertPair
  rw [assertThat_of hleaf, assertThat_of hpos, assertThat, if_neg (by omega)]
  rfl

/-- The slot for the new child is behind the one of the leaf, which is the last slot just for the last child. -/
theorem Stacked.parent_slot [Std.TransCmp cmp] {l₁ l₂ up : List (Option K × ℤ)} {above : List (List (Option K × ℤ))}
    {x : Option K × ℤ} {below : List ℤ} (h : ih.Stacked (l₁ ++ x :: l₂) (up :: above))
    (hpages : ih.Pages (below ++ ((l₁ ++ x :: (some key, q) :: l₂) ++ (up :: above).flatten).map Prod.snd))
    (hsorted : SepSorted cmp (l₁ ++ x :: (some key, q) :: l₂)) :
    ∃ y ∈ up, (ih.nodeAt x.2).parent = y.2 ∧ (ih.nodeAt y.2).isLeaf = false ∧
      (ih.nodeAt y.2).lowerBound cmp key ≤ (ih.nodeAt y.2).numKey ∧
      ((ih.nodeAt y.2).lowerBound cmp key = (ih.nodeAt y.2).numKey ↔
        (ih.nodeAt y.2).valueAt (ih.nodeAt y.2).numKey = x.2) := by
  obtain ⟨u₁, y, u₂, c₁, c₂, hup, hchildren, hl₁, hl₂, hlower⟩ := h.1.lowerBound_parent hsorted
  have hy : y ∈ up := by simp [hup]
  have hx : x ∈ ih.children y := by simp [hchildren]
  refine ⟨y, hy, h.1.parent y hy x hx, h.1.isLeaf y hy, IxNodeHandle.lowerBound_le_numKey cmp _ key, ?_⟩
  have hlen : c₁.length + c₂.length = (ih.nodeAt y.2).numKey := by
    have hcount : (ih.children y).length = (ih.nodeAt y.2).numKey + 1 := IxNodeHandle.length_children
    rw [hchildren, List.length_append, List.length_cons] at hcount
    omega
  have hlast : ∃ z ∈ ih.children y, (ih.children y)[(ih.nodeAt y.2).numKey]? = some z ∧
      z.2 = (ih.nodeAt y.2).valueAt (ih.nodeAt y.2).numKey := by
    refine ⟨(ih.nodeAt y.2).child y.1 (ih.nodeAt y.2).numKey, mem_toList.mpr ⟨_, Nat.lt_succ_self _, rfl⟩, ?_, ?_⟩
    · rw [List.getElem?_eq_getElem (by unfold children; simp)]
      exact congrArg some (IxNodeHandle.getElem_children _)
    · cases (ih.nodeAt y.2).numKey <;> rfl
  obtain ⟨z, -, hz, hvalue⟩ := hlast
  rw [hlower, ← hvalue]
  rw [hchildren] at hz
  constructor
  · intro heq
    rw [← heq, List.getElem?_append_right (Nat.le_refl _), Nat.sub_self] at hz
    rw [← Option.some.inj hz]
  · intro heq
    by_contra hne
    have hmem : z ∈ c₂ := by
      obtain ⟨j, hj⟩ : ∃ j, (ih.nodeAt y.2).numKey - c₁.length = j + 1 := ⟨(ih.nodeAt y.2).numKey - c₁.length - 1, by omega⟩
      rw [List.getElem?_append_right (by omega), hj, List.getElem?_cons_succ] at hz
      exact List.mem_of_getElem? hz
    have hnodup := (List.nodup_append.mp hpages.nodup).2.1
    rw [List.map_append, List.map_append, List.map_cons, List.map_cons, List.nodup_append, List.nodup_append,
      List.nodup_cons] at hnodup
    obtain ⟨⟨-, ⟨hnot, -⟩, -⟩, -⟩ := hnodup
    refine hnot (List.mem_cons_of_mem _ (List.mem_map.mpr ⟨z, ?_, heq⟩))
    rw [hl₂]
    exact List.mem_append_left _ hmem

theorem insertIntoParent_fits (fuel : ℕ) (q : ℤ) {parent : IxNodeHandle K} (hfits : Fits ih) (hold : ih.Holds p)
    (hroot : ¬(ih.nodeAt p).isRootPage)
    (hparent : ih.fetchNode (ih.nodeAt p).parent = .ok parent) (hleaf : parent.isLeaf = false)
    (hpos : parent.lowerBound cmp key ≤ parent.numKey)
    (hroom : parent.numKey + 2 < ih.fileHdr.maxSize ∨
      parent.numKey + 2 = ih.fileHdr.maxSize ∧ parent.lowerBound cmp key ≠ parent.numKey) :
    ∃ ih', insertIntoParent cmp (fuel + 1) ih p key q = .ok ih' ∧ Fits ih' ∧
      ∀ i ∈ insertIntoParentSlots cmp (fuel + 1) ih p key q, i < ih.fileHdr.maxSize := by
  obtain ⟨node, hinsert, hnum, -⟩ := insertPair_ok key q hfits.header hleaf hpos
    (by omega) (by omega)
  have hnotFull : node.numKey ≠ ih.fileHdr.maxSize := by omega
  refine ⟨ih.writeNode node, ?_, ⟨hfits.header, fun p => ?_⟩, fun i hi => ?_⟩
  · unfold insertIntoParent
    refine bind_eq_ok.mpr ⟨_, hold.fetchNode, ?_⟩
    rw [if_neg hroot]
    refine bind_eq_ok.mpr ⟨_, hparent, bind_eq_ok.mpr ⟨node, hinsert, ?_⟩⟩
    exact if_neg hnotFull
  · rw [nodeAt_writeNode]
    by_cases hp : p = node.pageNo
    · rw [hp, Function.update_self]
      change node.numKey < ih.fileHdr.maxSize
      omega
    · rw [Function.update_of_ne hp]
      exact hfits.numKey p
  · unfold insertIntoParentSlots at hi
    rw [hold.fetchNode, slotsOf_ok, if_neg hroot, hparent, slotsOf_ok] at hi
    dsimp only at hi
    rw [hinsert, slotsOf_ok] at hi
    change i ∈ _ ++ _ ++ (if node.numKey = ih.fileHdr.maxSize then _ else []) at hi
    rw [if_neg hnotFull, List.append_nil] at hi
    cases List.mem_append.mp hi with
    | inl hi =>
      have := IxNodeHandle.lt_of_mem_lowerBoundSlots hi
      omega
    | inr hi =>
      have := IxNodeHandle.le_of_mem_insertPairSlots hpos hi
      omega

theorem insertIntoParent_outside (fuel : ℕ) (q : ℤ) {parent : IxNodeHandle K} (hold : ih.Holds p)
    (hroot : ¬(ih.nodeAt p).isRootPage)
    (hparent : ih.fetchNode (ih.nodeAt p).parent = .ok parent) (hleaf : parent.isLeaf = false)
    (hpos : parent.lowerBound cmp key ≤ parent.numKey)
    (hroom : ¬(parent.numKey + 2 < ih.fileHdr.maxSize ∨
      parent.numKey + 2 = ih.fileHdr.maxSize ∧ parent.lowerBound cmp key ≠ parent.numKey)) :
    insertIntoParent cmp (fuel + 1) ih p key q = .error .assertion ∨
      ∃ i ∈ insertIntoParentSlots cmp (fuel + 1) ih p key q, ih.fileHdr.maxSize ≤ i := by
  by_cases hnum : parent.numKey + 2 = ih.fileHdr.maxSize
  · left
    have hlast : parent.lowerBound cmp key = parent.numKey := by
      by_contra hne
      exact hroom (.inr ⟨hnum, hne⟩)
    unfold insertIntoParent
    rw [hold.fetchNode]
    change (if (ih.nodeAt p).isRootPage then _ else _) = _
    rw [if_neg hroot, hparent]
    change parent.insertPair ih.fileHdr (parent.lowerBound cmp key) key q >>= _ = _
    rw [insertPair_assertion hleaf hpos (by omega)]
    rfl
  · right
    refine ⟨parent.numKey + 1, ?_, by omega⟩
    unfold insertIntoParentSlots
    rw [hold.fetchNode, slotsOf_ok, if_neg hroot, hparent, slotsOf_ok]
    exact List.mem_append_left _ (List.mem_append_right _ (IxNodeHandle.mem_insertPairSlots hpos))

theorem growRoot_fits (key : K) (hfits : Fits ih) (hleft : ih.Holds p) (hright : ih.Holds q) (hne : p ≠ q) (hp : p ≠ ih.fd2pageno)
    (hq : q ≠ ih.fd2pageno) : ∃ ih', ih.growRoot p key q = .ok ih' ∧ Fits ih' := by
  obtain ⟨ih', hgrow, hext, -, root, hroot, -, -, hnum, -, -, -, hpages⟩ := growRoot_eq key hleft hright hne hp hq
  have hcol : ih'.fileHdr.colTotLen = ih.fileHdr.colTotLen := by
    have hrun := hgrow
    unfold growRoot at hrun
    obtain ⟨ih₁, h₁, hrun⟩ := bind_eq_ok.mp hrun
    obtain ⟨ih₂, h₂, hrun⟩ := bind_eq_ok.mp hrun
    obtain ⟨ih₃, h₃, hrun⟩ := bind_eq_ok.mp hrun
    cases hrun
    change ih₃.fileHdr.colTotLen = _
    rw [updateNode_fileHdr h₃, updateNode_fileHdr h₂, updateNode_fileHdr h₁]
  have hext' := extends_createNode.trans hext
  have hsize := hfits.header.size
  refine ⟨ih', hgrow, fits_extends hfits.header hext' hcol, fun n => ?_⟩
  rw [hpages, growRootPages, hext'.maxSize]
  by_cases hnq : n = q
  · rw [hnq, Function.update_self]
    exact hfits.numKey q
  · rw [Function.update_of_ne hnq]
    by_cases hnp : n = p
    · rw [hnp, Function.update_self]
      exact hfits.numKey p
    · rw [Function.update_of_ne hnp]
      by_cases hnr : n = root.pageNo
      · rw [hnr, Function.update_self, hnum]
        omega
      · rw [Function.update_of_ne hnr]
        exact hfits.numKey n

/-! ### One insertion -/

theorem splitFullLeaf_of_split (cmp : K → K → Ordering) {r : ℤ × IxIndexHandle K} (hsplit : ih.split p = .ok r)
    (hheld : r.2.Holds r.1) :
    ih.splitFullLeaf cmp p = (insertIntoParent cmp r.2.fuel r.2 p ((r.2.nodeAt r.1).keys 0) r.1 >>= fun ih' =>
        pure (if p = ih'.fileHdr.lastLeaf then ih'.setLastLeaf r.1 else ih')) ∧
      ih.splitFullLeafSlots cmp p =
        ih.splitSlots p ++ 0 :: insertIntoParentSlots cmp r.2.fuel r.2 p ((r.2.nodeAt r.1).keys 0) r.1 := by
  constructor
  · unfold splitFullLeaf
    rw [hsplit]
    change (r.2.fetchNode r.1 >>= fun _ => _) = _
    rw [hheld.fetchNode]
    rfl
  · unfold splitFullLeafSlots
    rw [hsplit, slotsOf_ok, hheld.fetchNode, slotsOf_ok]

theorem insertEntrySlots_of_none {leaf : IxNodeHandle K} (hnone : ih.getValue cmp key = .ok none)
    (hfind : ih.findLeafPage cmp key = .ok leaf) (hinsert : leaf.insert cmp ih.fileHdr key value = .ok node) :
    ih.insertEntrySlots cmp key value = (if ih.unique then ih.getValueSlots cmp key else []) ++
      (ih.findLeafPageSlots cmp key ++ (leaf.insertSlots cmp key ++
        if node.numKey = ih.fileHdr.maxSize then (ih.writeNode node).splitFullLeafSlots cmp node.pageNo else [])) := by
  have hcheck : (if ih.unique then ih.getValue cmp key else .ok none) = .ok none := by
    split
    · exact hnone
    · rfl
  unfold insertEntrySlots
  rw [hcheck, slotsOf_ok, hfind, slotsOf_ok, hinsert, slotsOf_ok]
  rfl

/-- The way down and the insertion into the leaf stay inside of nodes that are not full. -/
theorem lt_of_mem_insertEntrySlots {leaf : IxNodeHandle K} (hfits : Fits ih) (hnone : ih.getValue cmp key = .ok none)
    (hfind : ih.findLeafPage cmp key = .ok leaf) (hleaf : leaf.numKey < ih.fileHdr.maxSize)
    (hinsert : leaf.insert cmp ih.fileHdr key value = .ok node)
    (hsplit : node.numKey = ih.fileHdr.maxSize →
      ∀ i ∈ (ih.writeNode node).splitFullLeafSlots cmp node.pageNo, i < ih.fileHdr.maxSize)
    (hi : i ∈ ih.insertEntrySlots cmp key value) : i < ih.fileHdr.maxSize := by
  rw [insertEntrySlots_of_none hnone hfind hinsert, List.mem_append, List.mem_append, List.mem_append] at hi
  rcases hi with hi | hi | hi | hi
  · split at hi
    · unfold getValueSlots at hi
      rw [hfind, slotsOf_ok, List.mem_append] at hi
      cases hi with
      | inl hi => exact findLeafSlots_lt hfits.numKey hi
      | inr hi => exact (IxNodeHandle.lt_of_mem_leafLookupSlots hi).trans hleaf
    · cases hi
  · exact findLeafSlots_lt hfits.numKey hi
  · exact Nat.lt_of_le_of_lt (IxNodeHandle.le_of_mem_insertSlots hi) hleaf
  · split at hi
    · rename_i hfull
      exact hsplit hfull i hi
    · cases hi

variable {leaves : List (Option K × ℤ)} {above : List (List (Option K × ℤ))} {x : Option K × ℤ}

theorem Tree.getValue_of_new [Std.TransCmp cmp] (h : Tree cmp ih leaves above) (hx : x ∈ leaves)
    (hfind : ih.findLeafPage cmp key = .ok (ih.nodeAt x.2)) (hnew : ∀ e ∈ ih.entriesOf leaves, cmp e.1 key ≠ .eq) :
    ih.getValue cmp key = .ok none := by
  unfold getValue
  rw [hfind]
  exact leafLookup_of_new (h.leaf.isLeaf x hx) (h.leaf.sortedKeys hx) fun e he =>
    hnew e (List.mem_flatMap.mpr ⟨x, hx, he⟩)

theorem Fits.setLastLeaf (h : Fits ih) (p : ℤ) : Fits (ih.setLastLeaf p) := ⟨⟨h.header.size, h.header.page⟩, h.numKey⟩

/-- A leaf that the new entry has filled is split, and its parent takes up the right half or has no slot for it. -/
theorem Tree.splitFullLeaf_cases [Std.TransCmp cmp] (h : Tree cmp ih leaves above) (hfits : Fits ih) (hx : x ∈ leaves)
    (hpage : node.pageNo = x.2) (hfull : node.numKey = ih.fileHdr.maxSize)
    (hparent : node.parent = (ih.nodeAt x.2).parent) (habove : Above (ih.writeNode node) [ixLeafHeaderPage] leaves above)
    (hlevel : LeafLevel cmp (ih.writeNode node) leaves) :
    ih.ParentRoom (ih.nodeAt x.2) ∧ (∃ ih', (ih.writeNode node).splitFullLeaf cmp x.2 = .ok ih' ∧ Fits ih') ∧
        (∀ i ∈ (ih.writeNode node).splitFullLeafSlots cmp x.2, i < ih.fileHdr.maxSize) ∨
      ¬ih.ParentRoom (ih.nodeAt x.2) ∧ ((ih.writeNode node).splitFullLeaf cmp x.2 = .error .assertion ∨
        ∃ i ∈ (ih.writeNode node).splitFullLeafSlots cmp x.2, ih.fileHdr.maxSize ≤ i) := by
  obtain ⟨l₁, l₂, hlsplit⟩ := List.append_of_mem hx
  have hpages := h.above.pages_around hlsplit
  obtain ⟨-, hleft, hright⟩ := hpages.apart
  have hheld := hpages.holds x.2 (by simp)
  have hrange := hpages.range x.2 (by simp)
  have hself : (ih.writeNode node).nodeAt x.2 = node := by rw [nodeAt_writeNode, hpage, Function.update_self]
  have hother : ∀ p, p ≠ x.2 → (ih.writeNode node).nodeAt p = ih.nodeAt p := by
    intro p hp
    rw [nodeAt_writeNode, hpage, Function.update_of_ne hp]
  have hothers : ∀ p, p ≠ x.2 → ((ih.writeNode node).nodeAt p).numKey < ih.fileHdr.maxSize := by
    intro p hp
    rw [hother p hp]
    exact hfits.numKey p
  have hsides : ∀ y, y ∈ l₁ ∨ y ∈ l₂ → ((ih.writeNode node).nodeAt y.2).numKey < ih.fileHdr.maxSize := by
    intro y hy
    exact hothers _ (hy.elim (hleft y) fun hy => hright y (List.mem_append_left _ hy))
  have hfull' : ((ih.writeNode node).nodeAt x.2).numKey = ih.fileHdr.maxSize := by rw [hself, hfull]
  -- the split of the leaf
  obtain ⟨hnextHeld, hnextNe, hnextX, hnextNew⟩ := hlevel.nextLeaf_spec habove hx
  have hheader : (ih.writeNode node).fileHdr.Fits := hfits.header
  obtain ⟨r, hsplit, hfitsSplit, hparentX⟩ := split_leaf_fits hheader hheld.writeNode
    (Int.ne_of_lt hrange.2) (hlevel.isLeaf x hx) hnextHeld hnextNe hnextX hnextNew hfull' hothers
  have hends := split_leafLevel habove hlevel hlsplit hsides hfull'
  rw [hsplit] at hends
  obtain ⟨leaves', hleaves', hext, hstacked, hsame, hpages', hlevel', -, -, haboveSame⟩ := hends
  have hmax : r.2.fileHdr.maxSize = ih.fileHdr.maxSize := hext.maxSize
  have hsorted := hlevel'.sepSorted
  rw [hleaves'] at hsorted hpages'
  rw [hlsplit] at hstacked
  have hnewHeld : r.2.Holds r.1 := hpages'.holds _ (by simp)
  have hxHeld : r.2.Holds x.2 := hpages'.holds _ (by simp)
  obtain ⟨hrun, hslots⟩ := splitFullLeaf_of_split cmp hsplit hnewHeld
  have hsplitSlots : ∀ i ∈ (ih.writeNode node).splitSlots x.2, i < ih.fileHdr.maxSize := by
    intro i hi
    unfold splitSlots at hi
    rw [hheld.writeNode.fetchNode, slotsOf_ok, if_pos (hlevel.isLeaf x hx)] at hi
    rw [← hfull']
    exact IxNodeHandle.lt_of_mem_splitLeafSlots hi
  have hsize := hfits.header.size
  have hlt : ∀ slots : List ℕ, (∀ i ∈ slots, i < ih.fileHdr.maxSize) →
      ∀ i ∈ (ih.writeNode node).splitSlots x.2 ++ 0 :: slots, i < ih.fileHdr.maxSize := by
    intro slots hlt i hi
    rw [List.mem_append, List.mem_cons] at hi
    rcases hi with hi | rfl | hi
    · exact hsplitSlots i hi
    · omega
    · exact hlt i hi
  have hok : ∀ ih', insertIntoParent cmp r.2.fuel r.2 x.2 ((r.2.nodeAt r.1).keys 0) r.1 = .ok ih' → Fits ih' →
      ∃ ih', (ih.writeNode node).splitFullLeaf cmp x.2 = .ok ih' ∧ Fits ih' := by
    intro ih' hinsert hfits'
    refine ⟨if x.2 = ih'.fileHdr.lastLeaf then ih'.setLastLeaf r.1 else ih', ?_, ?_⟩
    · rw [hrun, hinsert]
      rfl
    · split
      · exact hfits'.setLastLeaf _
      · exact hfits'
  rw [hself, hparent] at hparentX
  rw [hslots]
  cases above with
  | nil =>
    -- the leaf is the root
    rw [List.flatten_nil, List.append_nil] at hpages'
    obtain ⟨hroot, -⟩ := growRoot_above hstacked hpages'
    have hne : x.2 ≠ r.1 := by
      intro heq
      have hnodup := (List.nodup_append.mp hpages'.nodup).2.1
      rw [List.map_append, List.map_cons, List.map_cons, List.nodup_append, List.nodup_cons] at hnodup
      exact hnodup.2.1.1 (heq ▸ List.mem_cons_self)
    obtain ⟨ih', hgrow, hfits'⟩ := growRoot_fits ((r.2.nodeAt r.1).keys 0) hfitsSplit hxHeld hnewHeld hne
      (Int.ne_of_lt (hpages'.range _ (by simp)).2) (Int.ne_of_lt (hpages'.range _ (by simp)).2)
    have hinsert : insertIntoParent cmp r.2.fuel r.2 x.2 ((r.2.nodeAt r.1).keys 0) r.1 = .ok ih' := by
      refine bind_eq_ok.mpr ⟨_, hxHeld.fetchNode, ?_⟩
      rw [if_pos hroot]
      exact hgrow
    have hinsertSlots : insertIntoParentSlots cmp r.2.fuel r.2 x.2 ((r.2.nodeAt r.1).keys 0) r.1 = [0, 1] := by
      unfold IxIndexHandle.fuel insertIntoParentSlots
      rw [hxHeld.fetchNode, slotsOf_ok, if_pos hroot]
    refine .inl ⟨fun parent hnotRoot => ?_, hok ih' hinsert hfits', hlt _ fun i hi => ?_⟩
    · refine absurd ?_ hnotRoot
      rw [IxNodeHandle.isRootPage, ← hparentX]
      exact hroot
    · rw [hinsertSlots, List.mem_cons, List.mem_singleton] at hi
      omega
  | cons up above =>
    obtain ⟨y, hy, hxy, hleaf, hpos, hlast⟩ := hstacked.parent_slot hpages' hsorted
    have hyFlat : y ∈ (up :: above).flatten := List.mem_flatten.mpr ⟨up, List.mem_cons_self, hy⟩
    have hyMem : y.2 ∈ [ixLeafHeaderPage] ++ ((l₁ ++ x :: (some ((r.2.nodeAt r.1).keys 0), r.1) :: l₂) ++
        (up :: above).flatten).map Prod.snd :=
      List.mem_append_right _ (List.mem_map_of_mem (List.mem_append_right _ hyFlat))
    have hyHeld : r.2.Holds y.2 := hpages'.holds _ hyMem
    have hySame : r.2.nodeAt y.2 = ih.nodeAt y.2 := by
      rw [haboveSame y hyFlat, hother _ (hright y (List.mem_append_right _ hyFlat))]
    have hyOld : ih.Holds y.2 :=
      h.above.pages.holds _ (List.mem_append_right _ (List.mem_map_of_mem (List.mem_append_right _ hyFlat)))
    have hnotRoot : ¬(r.2.nodeAt x.2).isRootPage := by
      intro hroot
      have hpos := (hpages'.range _ hyMem).1
      rw [← hxy, show (r.2.nodeAt x.2).parent = ixNoPage from hroot] at hpos
      exact absurd hpos (by decide)
    have hfetch : r.2.fetchNode (r.2.nodeAt x.2).parent = .ok (r.2.nodeAt y.2) := by
      rw [hxy]
      exact hyHeld.fetchNode
    have hroom : ih.ParentRoom (ih.nodeAt x.2) ↔ (r.2.nodeAt y.2).numKey + 2 < r.2.fileHdr.maxSize ∨
        (r.2.nodeAt y.2).numKey + 2 = r.2.fileHdr.maxSize ∧
          (r.2.nodeAt y.2).lowerBound cmp ((r.2.nodeAt r.1).keys 0) ≠ (r.2.nodeAt y.2).numKey := by
      have hroot : ¬(ih.nodeAt x.2).isRootPage := by
        rw [IxNodeHandle.isRootPage, ← hparentX]
        exact hnotRoot
      rw [Ne, hlast, hmax, hySame]
      unfold ParentRoom
      rw [← hparentX, hxy, hyOld.fetchNode, hheld.pageNo]
      constructor
      · intro hall
        exact hall _ hroot rfl
      · intro hroom parent _ hparent
        rw [← Except.ok.inj hparent]
        exact hroom
    by_cases hcond : ih.ParentRoom (ih.nodeAt x.2)
    · obtain ⟨ih', hinsert, hfits', hbound⟩ := insertIntoParent_fits r.2.fd2pageno.toNat r.1 hfitsSplit
        hxHeld hnotRoot hfetch hleaf hpos (hroom.mp hcond)
      rw [hmax] at hbound
      exact .inl ⟨hcond, hok ih' hinsert hfits', hlt _ hbound⟩
    · refine .inr ⟨hcond, ?_⟩
      have houtside := insertIntoParent_outside r.2.fd2pageno.toNat r.1 hxHeld hnotRoot hfetch hleaf hpos
        (fun h => hcond (hroom.mpr h))
      cases houtside with
      | inl herror =>
        left
        rw [hrun]
        change insertIntoParent cmp (r.2.fd2pageno.toNat + 1) r.2 x.2 ((r.2.nodeAt r.1).keys 0) r.1 >>= _ = _
        rw [herror]
        rfl
      | inr hslot =>
        obtain ⟨i, hi, hge⟩ := hslot
        right
        rw [hmax] at hge
        exact ⟨i, List.mem_append_right _ (List.mem_cons_of_mem _ hi), hge⟩

omit [Inhabited K] in
theorem insert_parent {hdr : IxFileHdr} {node' : IxNodeHandle K} (h : node.insert cmp hdr key value = .ok node') :
    node'.parent = node.parent := by
  unfold IxNodeHandle.insert at h
  dsimp only at h
  split at h
  · rw [Except.ok.inj h]
  · obtain ⟨_, -, h⟩ := bind_eq_ok.mp h
    obtain ⟨_, -, h⟩ := bind_eq_ok.mp h
    obtain ⟨_, -, h⟩ := bind_eq_ok.mp h
    cases h
    rfl

/-- An insertion of a new key stays inside of the nodes just when there is room in the parent of its leaf. -/
theorem Tree.insertEntry_cases [Std.TransCmp cmp] (h : Tree cmp ih leaves above) (hfits : Fits ih) (e : K × Rid)
    (hnew : ∀ o ∈ ih.entriesOf leaves, cmp o.1 e.1 ≠ .eq) :
    Room cmp ih e ∧ Inside cmp ih e ∧ (∃ r, ih.insertEntry cmp e.1 e.2 = .ok r ∧ Fits r.2) ∨
      ¬Room cmp ih e ∧ ¬Inside cmp ih e := by
  obtain ⟨x, hroutes, hfind⟩ := h.findLeafPage e.1
  have hx : x ∈ leaves := by
    obtain ⟨pre, post, hsplit, -⟩ := hroutes
    simp [hsplit]
  have hnone := h.getValue_of_new hx hfind hnew
  obtain ⟨node, hinsert, hpage, hnumKey, habove, hlevel, -⟩ := h.writeLeaf e.2 hnew hroutes
  have hparent := insert_parent hinsert
  have hroom : Room cmp ih e ↔ (node.numKey = ih.fileHdr.maxSize → ih.ParentRoom (ih.nodeAt x.2)) := by
    unfold Room
    rw [hfind, hnumKey]
    constructor
    · intro hall hfull
      exact hall _ rfl hfull
    · intro hroom leaf hleaf hfull
      obtain rfl := Except.ok.inj hleaf
      exact hroom hfull
  have hrun : ih.insertEntry cmp e.1 e.2 = (if node.numKey = ih.fileHdr.maxSize then
      (ih.writeNode node).splitFullLeaf cmp node.pageNo >>= fun ih' => pure (node.pageNo, ih')
      else .ok (node.pageNo, ih.writeNode node)) := by
    rw [insertEntry_of_none hnone hfind, hinsert]
    rfl
  have hslots := insertEntrySlots_of_none hnone hfind hinsert
  by_cases hfull : node.numKey = ih.fileHdr.maxSize
  · rw [if_pos hfull, hpage] at hrun hslots
    rcases h.splitFullLeaf_cases hfits hx hpage hfull hparent habove hlevel with
      ⟨hparentRoom, ⟨ih', hsplit, hfits'⟩, hbound⟩ | ⟨hnoRoom, houtside⟩
    · rw [hsplit] at hrun
      refine .inl ⟨hroom.mpr fun _ => hparentRoom, ⟨?_, ?_⟩, _, hrun, hfits'⟩
      · rw [hrun]
        exact nofun
      · intro i hi
        refine lt_of_mem_insertEntrySlots hfits hnone hfind (hfits.numKey x.2) hinsert (fun _ => ?_) hi
        rw [hpage]
        exact hbound
    · refine .inr ⟨fun h => hnoRoom (hroom.mp h hfull), fun hinside => ?_⟩
      cases houtside with
      | inl herror =>
        rw [herror] at hrun
        exact hinside.1 hrun
      | inr hslot =>
        obtain ⟨i, hi, hge⟩ := hslot
        refine absurd (hinside.2 i ?_) (Nat.not_lt_of_le hge)
        rw [hslots]
        exact List.mem_append_right _ (List.mem_append_right _ (List.mem_append_right _ hi))
  · rw [if_neg hfull] at hrun
    refine .inl ⟨hroom.mpr fun h => absurd h hfull, ⟨?_, ?_⟩, _, hrun, hfits.header, fun p => ?_⟩
    · rw [hrun]
      exact nofun
    · intro i hi
      exact lt_of_mem_insertEntrySlots hfits hnone hfind (hfits.numKey x.2) hinsert (fun h => absurd h hfull) hi
    · rw [nodeAt_writeNode]
      by_cases hp : p = node.pageNo
      · have hlt := hfits.numKey x.2
        rw [hp, Function.update_self]
        change node.numKey < ih.fileHdr.maxSize
        omega
      · rw [Function.update_of_ne hp]
        exact hfits.numKey p

/-! ### Runs of insertions -/

/-- One call of a run. -/
def store (cmp : K → K → Ordering) (e : K × Rid) (ih : IxIndexHandle K) : Option (IxIndexHandle K) :=
  (ih.insertEntry cmp e.1 e.2).toOption.map Prod.snd

theorem Tree.inside_iff [Std.TransCmp cmp] (h : Tree cmp ih leaves above) (hfits : Fits ih) (entries : List (K × Rid))
    (hd : Distinct cmp (entries ++ ih.entriesOf leaves)) :
    Runs.Throughout (store cmp) (fun ih e _ => Inside cmp ih e) entries ih ↔
      Runs.AllMeet (store cmp) (fun e ih => Room cmp ih e) entries ih := by
  induction entries generalizing ih leaves above with
  | nil => exact Iff.rfl
  | cons e entries hrec =>
    have hnew : ∀ o ∈ ih.entriesOf leaves, cmp o.1 e.1 ≠ .eq := fun o ho heq =>
      (List.pairwise_cons.mp hd).1 o (List.mem_append_right _ ho) (Std.OrientedCmp.eq_symm heq)
    rcases h.insertEntry_cases hfits e hnew with ⟨hroom, hinside, r, hrun, hfits'⟩ | ⟨hnoRoom, houtside⟩
    · have hends := h.insertEntry e.2 hnew
      rw [hrun] at hends
      obtain ⟨-, leaves', above', htree, hperm⟩ := hends
      have hrest : (e :: (entries ++ ih.entriesOf leaves)).Perm (entries ++ r.2.entriesOf leaves') :=
        List.perm_middle.symm.trans (hperm.symm.append_left entries)
      have hiff := hrec htree hfits' (hd.perm hrest)
      have hstep : store cmp e ih = some r.2 := by
        unfold store
        rw [hrun]
        rfl
      constructor
      · intro ⟨ih', hih', _, hthrough⟩
        obtain rfl := Option.some.inj (hstep.symm.trans hih')
        refine ⟨hroom, fun ih'' hih'' => ?_⟩
        obtain rfl := Option.some.inj (hstep.symm.trans hih'')
        exact hiff.mp hthrough
      · intro ⟨_, hmeet⟩
        exact ⟨r.2, hstep, hinside, hiff.mpr (hmeet r.2 hstep)⟩
    · constructor
      · intro ⟨_, _, hinside, _⟩
        exact absurd hinside houtside
      · intro ⟨hroom, _⟩
        exact absurd hroom hnoRoom

/-- A run of insertions with pairwise distinct keys on an index from `create_index` returns from every call without a
failed assertion or a slot outside of its node, just when no leaf is filled whose parent lacks the room. -/
theorem inside_iff_room [Std.TransCmp cmp] {colTotLen : ℕ} {unique : Bool} {index : IxIndexHandle K}
    {entries : List (K × Rid)} (hcreate : createIndex colTotLen unique = .ok index) (hd : Distinct cmp entries) :
    Runs.Throughout (store cmp) (fun ih e _ => Inside cmp ih e) entries index ↔
      Runs.AllMeet (store cmp) (fun e ih => Room cmp ih e) entries index := by
  have hfits := fits_freshIndex hcreate
  obtain rfl : index = freshIndex (btreeOrderOf colTotLen) colTotLen unique := by
    unfold createIndex at hcreate
    split at hcreate
    · cases hcreate
    · obtain ⟨_, -, h⟩ := bind_eq_ok.mp hcreate
      exact (Except.ok.inj h).symm
  have hempty : (freshIndex (btreeOrderOf colTotLen) colTotLen unique : IxIndexHandle K).entriesOf
      [(none, ixInitRootPage)] = [] := rfl
  exact (tree_freshIndex cmp _ colTotLen unique).inside_iff hfits entries (by rwa [hempty, List.append_nil])

/-- Eight entries fill the root leaf. -/
theorem inside_iff_room_eight : ∃ index : IxIndexHandle (IxKey charCols), createIndex 496 false = .ok index ∧
    (Runs.Throughout (store IxKey.cmp) (fun ih e _ => Inside IxKey.cmp ih e) charEntries index ↔
      Runs.AllMeet (store IxKey.cmp) (fun e ih => Room IxKey.cmp ih e) charEntries index) := by
  have hcreate : createIndex 496 false = .ok (freshIndex 7 496 false : IxIndexHandle (IxKey charCols)) := rfl
  exact ⟨_, hcreate, inside_iff_room hcreate (by unfold Distinct; decide)⟩

def ascendingEntries (n : ℕ) : List (IxKey charCols × Rid) :=
  (List.range n).map fun i => (charKey (UInt8.ofNat (i + 1)), ⟨1, i⟩)

/-- In ascending order the 32nd key fills the last one of eight leaves; the root has six keys, one free slot too few. -/
theorem not_inside_charIndex : ∃ index ih : IxIndexHandle (IxKey charCols), createIndex 496 false = .ok index ∧
    Distinct IxKey.cmp (ascendingEntries 31 ++ [(charKey 32, ⟨1, 31⟩)]) ∧
      index.insertEntries IxKey.cmp (ascendingEntries 31) = .ok ih ∧ index.fileHdr.btreeOrder = 7 ∧
      ih.insertEntry IxKey.cmp (charKey 32) ⟨1, 31⟩ = .error .assertion := by
  have hrun : (match (freshIndex 7 496 false : IxIndexHandle (IxKey charCols)).insertEntries IxKey.cmp
      (ascendingEntries 31) with
    | .ok ih => match ih.insertEntry IxKey.cmp (charKey 32) ⟨1, 31⟩ with
      | .error .assertion => true
      | _ => false
    | .error _ => false) = true := by decide +kernel
  split at hrun
  · rename_i ih hinsert
    refine ⟨_, ih, rfl, by unfold Distinct; decide +kernel, hinsert, rfl, ?_⟩
    split at hrun
    · assumption
    · cases hrun
  · cases hrun

end IxIndexHandle
end Rmdb
