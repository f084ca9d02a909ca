import Rmdb.Index.Handle
import Rmdb.Lib.Program

/-! The pages of a tree as a total map, and what each step of an insertion does to that map. -/
namespace Rmdb

open SlotArray

/-- A failed assertion, or a write behind the end of a page. -/
def IxError.Stops (e : IxError) : Prop := e = .assertion ∨ e = .outOfPage

open Program

variable {K : Type}

theorem ends_assertThat {p : Prop} [Decidable p] : Ends IxError.Stops (fun _ => p) (assertThat p) := by
  unfold assertThat
  split
  · assumption
  · exact .inl rfl

namespace IxIndexHandle

variable {cmp : K → K → Ordering} {ih ih' : IxIndexHandle K} {p q : ℤ} {node : IxNodeHandle K}

/-- The page is in the file, under its own number. -/
def Holds (ih : IxIndexHandle K) (p : ℤ) : Prop := ∃ node, ih.pages p = some node ∧ node.pageNo = p

theorem Holds.writeNode (h : ih.Holds p) : (ih.writeNode node).Holds p := by
  by_cases hp : p = node.pageNo
  · exact ⟨node, by rw [hp]; exact Function.update_self .., hp.symm⟩
  · obtain ⟨old, hold, hpage⟩ := h
    exact ⟨old, by rw [← hold]; exact Function.update_of_ne hp .., hpage⟩

theorem holds_writeNode : (ih.writeNode node).Holds node.pageNo := ⟨node, Function.update_self .., rfl⟩

/-- What no step of an insertion takes away, up to the two pointers of the file header to the root and to
the last leaf. -/
structure Extends (ih ih' : IxIndexHandle K) : Prop where
  holds : ∀ p, ih.Holds p → ih'.Holds p
  fd2pageno : ih.fd2pageno ≤ ih'.fd2pageno
  btreeOrder : ih'.fileHdr.btreeOrder = ih.fileHdr.btreeOrder
  firstLeaf : ih'.fileHdr.firstLeaf = ih.fileHdr.firstLeaf
  lastLeaf : ih'.fileHdr.lastLeaf = ih.fileHdr.lastLeaf
  unique : ih'.unique = ih.unique

theorem Extends.refl (ih : IxIndexHandle K) : Extends ih ih := ⟨fun _ h => h, Int.le_refl _, rfl, rfl, rfl, rfl⟩

theorem Extends.trans {ih'' : IxIndexHandle K} (h : Extends ih ih') (h' : Extends ih' ih'') : Extends ih ih'' where
  holds p hp := h'.holds p (h.holds p hp)
  fd2pageno := Int.le_trans h.fd2pageno h'.fd2pageno
  btreeOrder := h'.btreeOrder.trans h.btreeOrder
  firstLeaf := h'.firstLeaf.trans h.firstLeaf
  lastLeaf := h'.lastLeaf.trans h.lastLeaf
  unique := h'.unique.trans h.unique

theorem Extends.maxSize (h : Extends ih ih') : ih'.fileHdr.maxSize = ih.fileHdr.maxSize := by
  unfold IxFileHdr.maxSize
  rw [h.btreeOrder]

theorem extends_writeNode : Extends ih (ih.writeNode node) :=
  ⟨fun _ h => h.writeNode, Int.le_refl _, rfl, rfl, rfl, rfl⟩

theorem insertPairs_ends {hdr : IxFileHdr} {pos : ℕ} {key : ℕ → K} {rid : ℕ → Rid} {n : ℕ} :
    Ends IxError.Stops (fun node' => (n = 0 ∨ node.numKey + n ≤ hdr.maxSize) ∧ node' = { node with
        keys := insertMany node.keys node.numKey pos key n
        rids := insertMany node.rids node.numKey pos rid n
        numKey := node.numKey + n }) (node.insertPairs hdr pos key rid n) := by
  unfold IxNodeHandle.insertPairs
  refine ends_assertThat.bind fun _ hpos => ends_assertThat.bind fun _ hshift => ends_assertThat.bind fun _ hlast => ?_
  exact ⟨by omega, rfl⟩

theorem insertPair_ends {hdr : IxFileHdr} {keyIdx : ℕ} {key : K} {childPageNo : ℤ} :
    Ends IxError.Stops (fun node' => ∃ rid : Rid, rid.pageNo = childPageNo ∧ node' = { node with
        keys := insertAt node.keys node.numKey keyIdx key
        rids := insertAt node.rids (node.numKey + 1) (keyIdx + 1) rid
        numKey := node.numKey + 1 }) (node.insertPair hdr keyIdx key childPageNo) := by
  unfold IxNodeHandle.insertPair
  refine ends_assertThat.bind fun _ _ => ends_assertThat.bind fun _ _ => ends_assertThat.bind fun _ _ => ?_
  split
  · exact .inr rfl
  · exact ⟨_, rfl, rfl⟩

/-! ### Single pages -/

variable [Inhabited K]

def nodeAt (ih : IxIndexHandle K) (p : ℤ) : IxNodeHandle K := (ih.pages p).getD (emptyNode p)

theorem Holds.fetchNode (h : ih.Holds p) : ih.fetchNode p = .ok (ih.nodeAt p) := by
  obtain ⟨node, hnode, -⟩ := h
  simp only [IxIndexHandle.fetchNode, nodeAt, hnode, Option.getD_some]

theorem Holds.pageNo (h : ih.Holds p) : (ih.nodeAt p).pageNo = p := by
  obtain ⟨node, hnode, hpage⟩ := h
  simp only [nodeAt, hnode, Option.getD_some, hpage]

@[simp] theorem nodeAt_writeNode : (ih.writeNode node).nodeAt = Function.update ih.nodeAt node.pageNo node := by
  funext p
  unfold nodeAt writeNode
  dsimp only
  by_cases hp : p = node.pageNo
  · rw [hp, Function.update_self, Function.update_self, Option.getD_some]
  · rw [Function.update_of_ne hp, Function.update_of_ne hp]

theorem updateNode_eq (h : ih.Holds p) {f : IxNodeHandle K → IxNodeHandle K} (hf : ∀ node, (f node).pageNo = node.pageNo) :
    ∃ ih', ih.updateNode p f = .ok ih' ∧ Extends ih ih' ∧ ih'.fileHdr = ih.fileHdr ∧
      ih'.nodeAt = Function.update ih.nodeAt p (f (ih.nodeAt p)) := by
  refine ⟨ih.writeNode (f (ih.nodeAt p)), ?_, extends_writeNode, rfl, ?_⟩
  · unfold updateNode
    rw [h.fetchNode]
    rfl
  · rw [nodeAt_writeNode, hf, h.pageNo]

theorem nodeAt_createNode :
    ih.createNode.2.nodeAt = Function.update ih.nodeAt ih.fd2pageno (emptyNode ih.fd2pageno) :=
  nodeAt_writeNode

theorem extends_createNode : Extends ih ih.createNode.2 where
  holds _ h := h.writeNode
  fd2pageno := by
    change ih.fd2pageno ≤ ih.fd2pageno + 1
    omega
  btreeOrder := rfl
  firstLeaf := rfl
  lastLeaf := rfl
  unique := rfl

theorem holds_createNode : ih.createNode.2.Holds ih.fd2pageno := ⟨emptyNode ih.fd2pageno, Function.update_self .., rfl⟩

/-- The loop over `maintain_child` makes `page` the parent of the first `n` children. -/
theorem maintainChildren_ends {page : ℤ} (hpage : ih.Holds page) (hleaf : (ih.nodeAt page).isLeaf = false) (n : ℕ)
    (hchild : ∀ i < n, ih.Holds ((ih.nodeAt page).valueAt i) ∧ (ih.nodeAt page).valueAt i ≠ page) :
    Ends IxError.Stops (fun ih' => Extends ih ih' ∧ ih'.fileHdr = ih.fileHdr ∧
        ∀ p, ih'.nodeAt p = if ∃ i < n, (ih.nodeAt page).valueAt i = p then { ih.nodeAt p with parent := page }
          else ih.nodeAt p)
      ((List.range n).foldlM (fun ih i => ih.maintainChild page i) ih) := by
  induction n with
  | zero => exact ⟨.refl ih, rfl, fun p => by simp⟩
  | succ n hrec =>
    rw [List.range_succ, List.foldlM_append]
    refine (hrec fun i hi => hchild i (by omega)).bind fun ih₁ h₁ => ?_
    obtain ⟨hext, hhdr, hnode⟩ := h₁
    obtain ⟨hheld, hne⟩ := hchild n (by omega)
    have hsame : ih₁.nodeAt page = ih.nodeAt page := by
      rw [hnode, if_neg]
      rintro ⟨i, hi, heq⟩
      exact (hchild i (by omega)).2 heq
    have hheld₁ : ih₁.Holds ((ih.nodeAt page).valueAt n) := hext.holds _ hheld
    obtain ⟨ih₂, hupdate, hext₂, hhdr₂, hnode₂⟩ :=
      updateNode_eq hheld₁ (f := fun child => { child with parent := page }) fun _ => rfl
    have hstep : Ends IxError.Stops (fun ih' => ih' = ih₂) (ih₁.maintainChild page n) := by
      unfold maintainChild
      rw [(hext.holds page hpage).fetchNode, hsame]
      change Ends _ _ (if (ih.nodeAt page).isLeaf = true then pure ih₁ else _)
      rw [hleaf, if_neg Bool.false_ne_true]
      exact ends_assertThat.bind fun _ _ => .of_eq hupdate rfl
    rw [List.foldlM_cons]
    refine hstep.bind fun ih' hih' => ?_
    subst hih'
    refine ⟨hext.trans hext₂, hhdr₂.trans hhdr, fun p => ?_⟩
    rw [hnode₂]
    by_cases hp : p = (ih.nodeAt page).valueAt n
    · rw [hp, Function.update_self, if_pos ⟨n, by omega, rfl⟩, hnode]
      split <;> rfl
    · rw [Function.update_of_ne hp, hnode]
      refine if_congr ⟨fun ⟨i, hi, heq⟩ => ⟨i, by omega, heq⟩, fun ⟨i, hi, heq⟩ => ⟨i, ?_, heq⟩⟩ rfl rfl
      have : i ≠ n := by
        rintro rfl
        exact hp heq.symm
      omega

/-! ### The splits -/

/-- The right half of the full leaf `node`. -/
structure RightLeaf (node right : IxNodeHandle K) : Prop where
  parent : right.parent = node.parent
  isLeaf : right.isLeaf = true
  prevLeaf : right.prevLeaf = node.pageNo
  nextLeaf : right.nextLeaf = node.nextLeaf
  numKey : right.numKey = node.numKey - (node.numKey + 1) / 2
  entries : right.entries = node.entries.drop ((node.numKey + 1) / 2)

/-- What a split of the leaf `node` leaves of the pages, with `right` on the new page. -/
def leafSplitPages (ih : IxIndexHandle K) (node right : IxNodeHandle K) : ℤ → IxNodeHandle K :=
  Function.update (Function.update (Function.update ih.nodeAt right.pageNo right) node.nextLeaf
      { ih.nodeAt node.nextLeaf with prevLeaf := right.pageNo })
    node.pageNo { node with numKey := (node.numKey + 1) / 2, nextLeaf := right.pageNo }

theorem splitLeaf_ends {newNode : IxNodeHandle K} (hnode : ih.Holds node.pageNo) (hnext : ih.Holds node.nextLeaf)
    (hne : node.nextLeaf ≠ ixNoPage) (hself : node.nextLeaf ≠ node.pageNo) (hnew : newNode.numKey = 0)
    (hleaf : newNode.isLeaf = true) (hparent : newNode.parent = node.parent) (hpage : newNode.pageNo ≠ node.nextLeaf) :
    Ends IxError.Stops (fun ih' => Extends ih ih' ∧ ih'.fileHdr = ih.fileHdr ∧ (node.numKey + 1) / 2 < ih.fileHdr.maxSize ∧
        ∃ right, right.pageNo = newNode.pageNo ∧ RightLeaf node right ∧ ih'.nodeAt = ih.leafSplitPages node right)
      (ih.splitLeaf node newNode) := by
  unfold splitLeaf
  refine ends_assertThat.bind fun _ hsplit => insertPairs_ends.bind fun right hright => ?_
  obtain ⟨-, hright⟩ := hright
  have hnumKey : right.numKey = node.numKey - (node.numKey + 1) / 2 := by
    rw [hright]
    dsimp only
    omega
  have hentries : right.entries = node.entries.drop ((node.numKey + 1) / 2) := by
    unfold IxNodeHandle.entries
    apply List.ext_getElem
    · simp [hnumKey]
    · intro i hi _
      rw [length_toList, hnumKey] at hi
      rw [getElem_toList, List.getElem_drop, getElem_toList, hright, hnew]
      simp only [insertMany]
      rw [if_neg (by omega), if_pos (by omega), if_neg (by omega), if_pos (by omega), Nat.sub_zero]
  have hrightPage : right.pageNo = newNode.pageNo := by rw [hright]
  rw [if_pos hne]
  -- the two halves are written, then the page behind them and the left half once more
  obtain ⟨ih₁, hih₁⟩ : ∃ ih₁, ih₁ = (ih.writeNode { right with prevLeaf := node.pageNo, nextLeaf := node.nextLeaf }).writeNode
      { node with numKey := (node.numKey + 1) / 2 } := ⟨_, rfl⟩
  have hext₁ : Extends ih ih₁ := hih₁ ▸ extends_writeNode.trans extends_writeNode
  have hhdr₁ : ih₁.fileHdr = ih.fileHdr := hih₁ ▸ rfl
  have hnode₁ : ih₁.nodeAt = Function.update (Function.update ih.nodeAt right.pageNo
      { right with prevLeaf := node.pageNo, nextLeaf := node.nextLeaf }) node.pageNo
      { node with numKey := (node.numKey + 1) / 2 } := by
    rw [hih₁, nodeAt_writeNode, nodeAt_writeNode]
  obtain ⟨ih₂, hupdate₂, hext₂, hhdr₂, hnode₂⟩ := updateNode_eq (hext₁.holds _ hnext)
    (f := fun next => { next with prevLeaf := right.pageNo }) fun _ => rfl
  obtain ⟨ih₃, hupdate₃, hext₃, hhdr₃, hnode₃⟩ := updateNode_eq (hext₂.holds _ (hext₁.holds _ hnode))
    (f := fun node => { node with nextLeaf := right.pageNo }) fun _ => rfl
  have hdo : (do
      let ih ← ih₁.updateNode node.nextLeaf fun next => { next with prevLeaf := right.pageNo }
      ih.updateNode node.pageNo fun node => { node with nextLeaf := right.pageNo }) = .ok ih₃ := by
    rw [hupdate₂]
    exact hupdate₃
  subst hih₁
  refine .of_eq hdo ⟨hext₁.trans (hext₂.trans hext₃), hhdr₃.trans (hhdr₂.trans hhdr₁), hsplit,
    { right with prevLeaf := node.pageNo, nextLeaf := node.nextLeaf }, hrightPage,
    ⟨by rw [hright]; exact hparent, by rw [hright]; exact hleaf, rfl, rfl, hnumKey, hentries⟩, ?_⟩
  have hnext₁ : node.nextLeaf ≠ right.pageNo := hrightPage ▸ hpage.symm
  rw [hnode₃, hnode₂, hnode₁, Function.update_of_ne hself.symm, Function.update_self, Function.update_of_ne hself,
    Function.update_of_ne hnext₁, Function.update_comm hself, Function.update_idem, Function.update_comm hself.symm]
  rfl

/-- What a split of the internal node `node` makes of `newNode`. -/
def upperHalf (node newNode : IxNodeHandle K) : IxNodeHandle K :=
  { newNode with
    keys := fun i =>
      if i < node.numKey - node.numKey / 2 - 1 then node.keys (node.numKey / 2 + 1 + i) else newNode.keys i
    rids := fun i =>
      if i < node.numKey - node.numKey / 2 - 1 + 1 then node.rids (node.numKey / 2 + 1 + i) else newNode.rids i
    numKey := node.numKey - node.numKey / 2 - 1 }

omit [Inhabited K] in
theorem splitInternal_bind (node newNode : IxNodeHandle K) : ih.splitInternal node newNode = (do
    assertThat (node.numKey / 2 + 1 < ih.fileHdr.maxSize)
    (List.range ((upperHalf node newNode).numKey + 1)).foldlM (fun ih i => ih.maintainChild newNode.pageNo i)
      ((ih.writeNode (upperHalf node newNode)).writeNode { node with numKey := node.numKey / 2 })) := rfl

/-- The right half of the full internal node `node`. -/
structure RightInternal (node right : IxNodeHandle K) : Prop where
  parent : right.parent = node.parent
  isLeaf : right.isLeaf = false
  numKey : right.numKey = node.numKey - node.numKey / 2 - 1
  keys : ∀ i < right.numKey, right.keys i = node.keys (node.numKey / 2 + 1 + i)
  rids : ∀ i ≤ right.numKey, right.rids i = node.rids (node.numKey / 2 + 1 + i)

/-- What a split of the internal node `node` leaves of the pages, with `right` on the new page. -/
def internalSplitPages (ih : IxIndexHandle K) (node right : IxNodeHandle K) (p : ℤ) : IxNodeHandle K :=
  let pages := Function.update (Function.update ih.nodeAt right.pageNo right) node.pageNo
    { node with numKey := node.numKey / 2 }
  if ∃ i < right.numKey + 1, right.valueAt i = p then { pages p with parent := right.pageNo } else pages p

theorem splitInternal_ends {newNode : IxNodeHandle K} (hleaf : newNode.isLeaf = false)
    (hparent : newNode.parent = node.parent) (hpage : newNode.pageNo ≠ node.pageNo) (hnum : 0 < node.numKey)
    (hchild : ∀ i ≤ node.numKey, ih.Holds (node.valueAt i) ∧ node.valueAt i ≠ newNode.pageNo) :
    Ends IxError.Stops (fun ih' => Extends ih ih' ∧ ih'.fileHdr = ih.fileHdr ∧ ih'.Holds newNode.pageNo ∧
        ∃ right, right.pageNo = newNode.pageNo ∧ RightInternal node right ∧ ih'.nodeAt = ih.internalSplitPages node right)
      (ih.splitInternal node newNode) := by
  rw [splitInternal_bind]
  refine ends_assertThat.bind fun _ _ => ?_
  obtain ⟨right, hright⟩ : ∃ right, right = upperHalf node newNode := ⟨_, rfl⟩
  rw [← hright]
  have hnumKey : right.numKey = node.numKey - node.numKey / 2 - 1 := hright ▸ rfl
  have hrightPage : right.pageNo = newNode.pageNo := hright ▸ rfl
  have hkeys : ∀ i < right.numKey, right.keys i = node.keys (node.numKey / 2 + 1 + i) := by
    intro i hi
    rw [hnumKey] at hi
    rw [hright]
    exact if_pos hi
  have hrids : ∀ i ≤ right.numKey, right.rids i = node.rids (node.numKey / 2 + 1 + i) := by
    intro i hi
    rw [hnumKey] at hi
    rw [hright]
    exact if_pos (by omega)
  obtain ⟨ih₁, hih₁⟩ : ∃ ih₁, ih₁ = (ih.writeNode right).writeNode { node with numKey := node.numKey / 2 } := ⟨_, rfl⟩
  have hext₁ : Extends ih ih₁ := hih₁ ▸ extends_writeNode.trans extends_writeNode
  have hnode₁ : ih₁.nodeAt = Function.update (Function.update ih.nodeAt right.pageNo right) node.pageNo
      { node with numKey := node.numKey / 2 } := by
    rw [hih₁, nodeAt_writeNode, nodeAt_writeNode]
  have hheld₁ : ih₁.Holds right.pageNo := by
    rw [hih₁]
    exact holds_writeNode.writeNode
  have hsame : ih₁.nodeAt right.pageNo = right := by
    rw [hnode₁, Function.update_of_ne (hrightPage ▸ hpage), Function.update_self]
  rw [← hih₁, ← hrightPage]
  have hchild₁ : ∀ i < right.numKey + 1, ih₁.Holds ((ih₁.nodeAt right.pageNo).valueAt i) ∧
      (ih₁.nodeAt right.pageNo).valueAt i ≠ right.pageNo := by
    intro i hi
    have hvalue : right.valueAt i = node.valueAt (node.numKey / 2 + 1 + i) :=
      congrArg Rid.pageNo (hrids i (by omega))
    obtain ⟨hheld, hne⟩ := hchild (node.numKey / 2 + 1 + i) (by omega)
    rw [hsame, hvalue, hrightPage]
    exact ⟨hext₁.holds _ hheld, hne⟩
  have hleaf₁ : (ih₁.nodeAt right.pageNo).isLeaf = false := by
    rw [hsame, hright]
    exact hleaf
  refine (maintainChildren_ends hheld₁ hleaf₁ _ hchild₁).mono fun ih' h => ?_
  obtain ⟨hext, hhdr, hnode'⟩ := h
  refine ⟨hext₁.trans hext, hhdr.trans (hih₁ ▸ rfl), hext.holds _ hheld₁, right, rfl,
    ⟨by rw [hright]; exact hparent, by rw [hright]; exact hleaf, hnumKey, hkeys, hrids⟩, funext fun p => ?_⟩
  rw [hnode' p, hsame, internalSplitPages, hnode₁]

theorem nodeAt_createNode_of_ne (hp : p ≠ ih.fd2pageno) : ih.createNode.2.nodeAt p = ih.nodeAt p := by
  rw [nodeAt_createNode, Function.update_of_ne hp]

theorem split_eq (hp : ih.Holds p) (hlt : p ≠ ih.fd2pageno) :
    ih.split p = (if (ih.nodeAt p).isLeaf = true
      then ih.createNode.2.splitLeaf (ih.nodeAt p) { (emptyNode ih.fd2pageno : IxNodeHandle K) with
        isLeaf := (ih.nodeAt p).isLeaf, parent := (ih.nodeAt p).parent }
      else ih.createNode.2.splitInternal (ih.nodeAt p) { (emptyNode ih.fd2pageno : IxNodeHandle K) with
        isLeaf := (ih.nodeAt p).isLeaf, parent := (ih.nodeAt p).parent }) >>= fun ih' => pure (ih.fd2pageno, ih') := by
  have hnew : ih.createNode.2.nodeAt ih.fd2pageno = emptyNode ih.fd2pageno := by
    rw [nodeAt_createNode, Function.update_self]
  unfold split
  change (ih.createNode.2.fetchNode p >>= fun _ => ih.createNode.2.fetchNode ih.fd2pageno >>= fun _ => _) = _
  rw [(extends_createNode.holds p hp).fetchNode, holds_createNode.fetchNode, nodeAt_createNode_of_ne hlt, hnew]
  cases hleaf : (ih.nodeAt p).isLeaf with
  | false =>
    change (if (ih.nodeAt p).isLeaf = true then _ else _) = _
    rw [hleaf]
    rfl
  | true =>
    change (if (ih.nodeAt p).isLeaf = true then _ else _) = _
    rw [hleaf]
    rfl

theorem split_leaf_ends (hp : ih.Holds p) (hlt : p ≠ ih.fd2pageno) (hleaf : (ih.nodeAt p).isLeaf = true)
    (hnext : ih.Holds (ih.nodeAt p).nextLeaf) (hne : (ih.nodeAt p).nextLeaf ≠ ixNoPage)
    (hself : (ih.nodeAt p).nextLeaf ≠ p) (hnextlt : (ih.nodeAt p).nextLeaf ≠ ih.fd2pageno) :
    Ends IxError.Stops (fun r => r.1 = ih.fd2pageno ∧ Extends ih.createNode.2 r.2 ∧
        r.2.fileHdr.rootPage = ih.fileHdr.rootPage ∧ ((ih.nodeAt p).numKey + 1) / 2 < ih.fileHdr.maxSize ∧
        ∃ right, right.pageNo = ih.fd2pageno ∧ RightLeaf (ih.nodeAt p) right ∧
          r.2.nodeAt = ih.leafSplitPages (ih.nodeAt p) right) (ih.split p) := by
  rw [split_eq hp hlt, hleaf, if_pos rfl]
  have hheld : ih.createNode.2.Holds (ih.nodeAt p).pageNo := by
    rw [hp.pageNo]
    exact extends_createNode.holds p hp
  have hself' : (ih.nodeAt p).nextLeaf ≠ (ih.nodeAt p).pageNo := by
    rw [hp.pageNo]
    exact hself
  refine Ends.bind (splitLeaf_ends hheld (extends_createNode.holds _ hnext) hne hself' rfl rfl rfl hnextlt.symm)
    fun ih' h => ?_
  obtain ⟨hext, hhdr, hpoint, right, hpage, hright, hpages⟩ := h
  have hpage' : right.pageNo = ih.fd2pageno := hpage
  refine ⟨rfl, hext, by rw [hhdr]; rfl, hpoint, right, hpage, hright, ?_⟩
  rw [hpages, leafSplitPages, leafSplitPages, nodeAt_createNode_of_ne hnextlt, hpage', nodeAt_createNode,
    Function.update_idem]

theorem split_internal_ends (hp : ih.Holds p) (hlt : p ≠ ih.fd2pageno) (hleaf : (ih.nodeAt p).isLeaf = false)
    (hnum : 0 < (ih.nodeAt p).numKey)
    (hchild : ∀ i ≤ (ih.nodeAt p).numKey, ih.Holds ((ih.nodeAt p).valueAt i) ∧ (ih.nodeAt p).valueAt i ≠ ih.fd2pageno) :
    Ends IxError.Stops (fun r => r.1 = ih.fd2pageno ∧ Extends ih.createNode.2 r.2 ∧
        r.2.fileHdr.rootPage = ih.fileHdr.rootPage ∧
        ∃ right, right.pageNo = ih.fd2pageno ∧ RightInternal (ih.nodeAt p) right ∧
          r.2.nodeAt = ih.internalSplitPages (ih.nodeAt p) right) (ih.split p) := by
  rw [split_eq hp hlt, hleaf, if_neg Bool.false_ne_true]
  have hself : ih.fd2pageno ≠ (ih.nodeAt p).pageNo := by
    rw [hp.pageNo]
    exact hlt.symm
  refine Ends.bind (splitInternal_ends rfl rfl hself hnum fun i hi =>
    ⟨extends_createNode.holds _ (hchild i hi).1, (hchild i hi).2⟩) fun ih' h => ?_
  obtain ⟨hext, hhdr, -, right, hpage, hright, hpages⟩ := h
  have hpage' : right.pageNo = ih.fd2pageno := hpage
  refine ⟨rfl, hext, by rw [hhdr]; rfl, right, hpage, hright, ?_⟩
  rw [hpages]
  funext q
  rw [internalSplitPages, internalSplitPages, hpage', nodeAt_createNode, Function.update_idem]

/-! ### The new root -/

/-- The `root` over the pages `left` and `right`. -/
def newRoot (left : ℤ) (key : K) (right : ℤ) (root : IxNodeHandle K) : IxNodeHandle K :=
  { root with
    isLeaf := false
    parent := ixNoPage
    keys := Function.update root.keys 0 key
    rids := Function.update (Function.update root.rids 0 { root.rids 0 with pageNo := left }) 1
      { root.rids 1 with pageNo := right }
    numKey := 1 }

theorem growRoot_bind (left : ℤ) (key : K) (right : ℤ) : ih.growRoot left key right = (do
    let ih' ← ih.createNode.2.updateNode ih.fd2pageno (newRoot left key right)
    let ih' ← ih'.updateNode left fun node => { node with parent := ih.fd2pageno }
    let ih' ← ih'.updateNode right fun node => { node with parent := ih.fd2pageno }
    return ih'.setRootPage ih.fd2pageno) := rfl

/-- The pages of the tree under a new root. -/
def growRootPages (ih : IxIndexHandle K) (left right : ℤ) (root : IxNodeHandle K) : ℤ → IxNodeHandle K :=
  Function.update (Function.update (Function.update ih.nodeAt root.pageNo root) left
    { ih.nodeAt left with parent := root.pageNo }) right { ih.nodeAt right with parent := root.pageNo }

theorem growRoot_eq {left right : ℤ} (key : K) (hleft : ih.Holds left) (hright : ih.Holds right) (hne : left ≠ right)
    (hleft' : left ≠ ih.fd2pageno) (hright' : right ≠ ih.fd2pageno) :
    ∃ ih', ih.growRoot left key right = .ok ih' ∧ Extends ih.createNode.2 ih' ∧
      ih'.fileHdr.rootPage = ih.fd2pageno ∧ ∃ root : IxNodeHandle K, root.pageNo = ih.fd2pageno ∧
        root.parent = ixNoPage ∧ root.isLeaf = false ∧ root.numKey = 1 ∧ root.keys 0 = key ∧
        root.valueAt 0 = left ∧ root.valueAt 1 = right ∧ ih'.nodeAt = ih.growRootPages left right root := by
  obtain ⟨ih₁, hupdate₁, hext₁, hhdr₁, hnode₁⟩ := updateNode_eq
    (show ih.createNode.2.Holds ih.fd2pageno from holds_createNode) (f := newRoot left key right) fun _ => rfl
  obtain ⟨ih₂, hupdate₂, hext₂, hhdr₂, hnode₂⟩ := updateNode_eq (hext₁.holds _ (extends_createNode.holds _ hleft))
    (f := fun node => { node with parent := ih.fd2pageno }) fun _ => rfl
  obtain ⟨ih₃, hupdate₃, hext₃, hhdr₃, hnode₃⟩ :=
    updateNode_eq (hext₂.holds _ (hext₁.holds _ (extends_createNode.holds _ hright)))
      (f := fun node => { node with parent := ih.fd2pageno }) fun _ => rfl
  have hext := hext₁.trans (hext₂.trans hext₃)
  refine ⟨ih₃.setRootPage ih.fd2pageno, ?_, ⟨hext.holds, hext.fd2pageno, hext.btreeOrder, hext.firstLeaf, hext.lastLeaf,
    hext.unique⟩, rfl, newRoot left key right (emptyNode ih.fd2pageno), rfl, rfl, rfl, rfl, rfl, rfl, rfl, ?_⟩
  · rw [growRoot_bind]
    exact bind_eq_ok.mpr ⟨ih₁, hupdate₁, bind_eq_ok.mpr ⟨ih₂, hupdate₂, bind_eq_ok.mpr ⟨ih₃, hupdate₃, rfl⟩⟩⟩
  · change ih₃.nodeAt = _
    rw [hnode₃, hnode₂, hnode₁, nodeAt_createNode, Function.update_self, Function.update_idem,
      Function.update_of_ne hne.symm, Function.update_of_ne hleft', Function.update_of_ne hright']
    rfl

end IxIndexHandle
end Rmdb
