import Rmdb.Index.BPlusTree
import Rmdb.Index.RootPage

/-! What stands in the leaves after a run of insertions, whatever the comparison of the keys does. The levels above the
leaves are changed without a look at the leaves, so the chain of the leaves can be followed without them. -/
namespace Rmdb

open SlotArray Program

variable {K : Type}

/-- A leaf without its parent. -/
def IxNodeHandle.asLeaf (node : IxNodeHandle K) : Option (IxNodeHandle K) :=
  if node.isLeaf then some { node with parent := ixNoPage } else none

theorem IxNodeHandle.asLeaf_eq_none {node : IxNodeHandle K} : node.asLeaf = none ↔ node.isLeaf = false := by
  unfold IxNodeHandle.asLeaf
  cases node.isLeaf with
  | false => simp
  | true => simp

namespace IxIndexHandle

variable {cmp : K → K → Ordering} {ih ih' ih'' : IxIndexHandle K} {node newNode : IxNodeHandle K} {p q : ℤ}

/-- Pages carry their own numbers, which are below those of the pages to come. -/
structure PageNumbers (ih : IxIndexHandle K) : Prop where
  pageNo : ∀ p node, ih.pages p = some node → node.pageNo = p
  range : ∀ p node, ih.pages p = some node → 0 < p ∧ p < ih.fd2pageno
  header : ih.Holds ixLeafHeaderPage

theorem Sound.numbered {height : ℤ → ℕ} (h : Sound height ih) : PageNumbers ih :=
  ⟨h.pageNo, fun p _ hnode => h.range p (h.holds hnode), h.header⟩

def leafAt (ih : IxIndexHandle K) (p : ℤ) : Option (IxNodeHandle K) := (ih.pages p).bind IxNodeHandle.asLeaf

theorem leafAt_of_pages (h : ih.pages p = some node) : ih.leafAt p = node.asLeaf := by
  rw [leafAt, h, Option.bind_some]

/-- What a change of the levels above the leaves keeps. -/
structure KeepsLeaves (ih ih' : IxIndexHandle K) : Prop extends Extends ih ih' where
  numbered : PageNumbers ih'
  leafAt : ih'.leafAt = ih.leafAt

theorem KeepsLeaves.refl (h : PageNumbers ih) : KeepsLeaves ih ih := ⟨.refl ih, h, rfl⟩

theorem KeepsLeaves.trans (h : KeepsLeaves ih ih') (h' : KeepsLeaves ih' ih'') : KeepsLeaves ih ih'' :=
  ⟨h.toExtends.trans h'.toExtends, h'.numbered, h'.leafAt.trans h.leafAt⟩

theorem pages_writeNode : (ih.writeNode node).pages = Function.update ih.pages node.pageNo (some node) := rfl

theorem PageNumbers.writeNode (h : PageNumbers ih) (hrange : 0 < node.pageNo ∧ node.pageNo < ih.fd2pageno) :
    PageNumbers (ih.writeNode node) := by
  have hpages : ∀ p node', (ih.writeNode node).pages p = some node' →
      p = node.pageNo ∧ node' = node ∨ ih.pages p = some node' := by
    intro p node' hp
    rw [pages_writeNode] at hp
    by_cases heq : p = node.pageNo
    · rw [heq, Function.update_self] at hp
      exact .inl ⟨heq, (Option.some.inj hp).symm⟩
    · rw [Function.update_of_ne heq] at hp
      exact .inr hp
  refine ⟨fun p node' hp => ?_, fun p node' hp => ?_, h.header.writeNode⟩
  · cases hpages p node' hp with
    | inl hnew => rw [hnew.1, hnew.2]
    | inr hold => exact h.pageNo p node' hold
  · cases hpages p node' hp with
    | inl hnew => exact hnew.1 ▸ hrange
    | inr hold => exact h.range p node' hold

theorem KeepsLeaves.writeNode (h : PageNumbers ih) (hrange : 0 < node.pageNo ∧ node.pageNo < ih.fd2pageno)
    (hsame : node.asLeaf = ih.leafAt node.pageNo) : KeepsLeaves ih (ih.writeNode node) := by
  refine ⟨extends_writeNode, h.writeNode hrange, funext fun p => ?_⟩
  by_cases heq : p = node.pageNo
  · rw [heq, ← hsame, IxIndexHandle.leafAt, pages_writeNode, Function.update_self, Option.bind_some]
  · rw [IxIndexHandle.leafAt, pages_writeNode, Function.update_of_ne heq, IxIndexHandle.leafAt]

theorem updateNode_ok {f : IxNodeHandle K → IxNodeHandle K} (h : ih.updateNode p f = .ok ih') :
    ∃ node, ih.pages p = some node ∧ ih' = ih.writeNode (f node) := by
  obtain ⟨node, hfetch, hwrite⟩ := bind_eq_ok.mp h
  unfold IxIndexHandle.fetchNode at hfetch
  split at hfetch
  · next hnode =>
    cases hfetch
    exact ⟨node, hnode, (Except.ok.inj hwrite).symm⟩
  · cases hfetch

theorem fetchNode_ok (h : ih.fetchNode p = .ok node) : ih.pages p = some node := by
  unfold IxIndexHandle.fetchNode at h
  split at h
  · next hnode => rw [hnode, Except.ok.inj h]
  · cases h

theorem KeepsLeaves.updateNode {f : IxNodeHandle K → IxNodeHandle K} (h : PageNumbers ih)
    (hpage : ∀ node, (f node).pageNo = node.pageNo)
    (hsame : ∀ node, ih.pages p = some node → (f node).asLeaf = node.asLeaf)
    (hrun : ih.updateNode p f = .ok ih') : KeepsLeaves ih ih' := by
  obtain ⟨node, hnode, rfl⟩ := updateNode_ok hrun
  have hnumber : (f node).pageNo = p := (hpage node).trans (h.pageNo p node hnode)
  refine .writeNode h (hnumber ▸ h.range p node hnode) ?_
  rw [hnumber, leafAt_of_pages hnode, hsame node hnode]

theorem KeepsLeaves.setParent (h : PageNumbers ih)
    (hrun : (ih.updateNode p fun node => { node with parent := q }) = .ok ih') : KeepsLeaves ih ih' :=
  .updateNode (f := fun node => { node with parent := q }) h (fun _ => rfl) (fun _ _ => rfl) hrun

theorem KeepsLeaves.maintainChild {i : ℕ} (h : PageNumbers ih) (hrun : ih.maintainChild p i = .ok ih') :
    KeepsLeaves ih ih' := by
  obtain ⟨node, -, hrun⟩ := bind_eq_ok.mp hrun
  split at hrun
  · cases hrun
    exact .refl h
  · obtain ⟨_, -, hrun⟩ := bind_eq_ok.mp hrun
    exact .setParent h hrun

theorem PageNumbers.range_of_holds (h : PageNumbers ih) (hp : ih.Holds p) : 0 < p ∧ p < ih.fd2pageno := by
  obtain ⟨node, hnode, -⟩ := hp
  exact h.range p node hnode

/-! ### The levels above the leaves -/

theorem PageNumbers.leafAt_fd2pageno (h : PageNumbers ih) : ih.leafAt ih.fd2pageno = none := by
  unfold IxIndexHandle.leafAt
  cases hnew : ih.pages ih.fd2pageno with
  | none => rfl
  | some node => exact absurd (h.range _ node hnew).2 (Int.lt_irrefl _)

theorem PageNumbers.fd2pageno_pos (h : PageNumbers ih) : 0 < ih.fd2pageno := by
  obtain ⟨node, hnode, -⟩ := h.header
  have := h.range _ node hnode
  omega

/-- A page that is no leaf may be written with a node that is none. -/
structure Internal (ih : IxIndexHandle K) (p : ℤ) : Prop where
  range : 0 < p ∧ p < ih.fd2pageno
  leafAt : ih.leafAt p = none

theorem Internal.keeps (h : Internal ih p) (hk : KeepsLeaves ih ih') : Internal ih' p :=
  ⟨⟨h.range.1, Int.lt_of_lt_of_le h.range.2 hk.fd2pageno⟩, hk.leafAt ▸ h.leafAt⟩

theorem PageNumbers.internal (h : PageNumbers ih) (hnode : ih.pages p = some node) (hleaf : node.isLeaf = false) :
    Internal ih p :=
  ⟨h.range p node hnode, (leafAt_of_pages hnode).trans (IxNodeHandle.asLeaf_eq_none.mpr hleaf)⟩

theorem Internal.writeNode (h : Internal ih node.pageNo) (hnumbered : PageNumbers ih) (hleaf : node.isLeaf = false) :
    KeepsLeaves ih (ih.writeNode node) :=
  .writeNode hnumbered h.range ((IxNodeHandle.asLeaf_eq_none.mpr hleaf).trans h.leafAt.symm)

theorem KeepsLeaves.splitInternal (h : PageNumbers ih) (hnode : Internal ih node.pageNo) (hleaf : node.isLeaf = false)
    (hnew : Internal ih newNode.pageNo) (hnewLeaf : newNode.isLeaf = false)
    (hrun : ih.splitInternal node newNode = .ok ih') : KeepsLeaves ih ih' := by
  rw [splitInternal_bind] at hrun
  obtain ⟨_, -, hrun⟩ := bind_eq_ok.mp hrun
  obtain ⟨right, hright⟩ : ∃ right, right = upperHalf node newNode := ⟨_, rfl⟩
  rw [← hright] at hrun
  have hpage : right.pageNo = newNode.pageNo := hright ▸ rfl
  have hwriteRight : KeepsLeaves ih (ih.writeNode right) := by
    refine Internal.writeNode (hpage ▸ hnew) h ?_
    rw [hright]
    exact hnewLeaf
  have hwriteLeft : KeepsLeaves ih ((ih.writeNode right).writeNode { node with numKey := node.numKey / 2 }) :=
    hwriteRight.trans (Internal.writeNode (hnode.keeps hwriteRight) hwriteRight.numbered hleaf)
  exact of_foldlM (I := KeepsLeaves ih) hrun hwriteLeft fun ih₁ h₁ i _ ih₂ hrun₂ =>
    h₁.trans (.maintainChild h₁.numbered hrun₂)

theorem insertPair_isLeaf {hdr : IxFileHdr} {i : ℕ} {key : K} {node' : IxNodeHandle K}
    (h : node.insertPair hdr i key p = .ok node') :
    node.isLeaf = false ∧ node'.pageNo = node.pageNo ∧ node'.isLeaf = false := by
  obtain ⟨_, hassert, h⟩ := bind_eq_ok.mp h
  obtain ⟨_, -, h⟩ := bind_eq_ok.mp h
  obtain ⟨_, -, h⟩ := bind_eq_ok.mp h
  have hleaf : node.isLeaf = false := by
    unfold assertThat at hassert
    split at hassert
    · assumption
    · cases hassert
  split at h
  · cases h
  · cases h
    exact ⟨hleaf, rfl, hleaf⟩

variable [Inhabited K]

theorem KeepsLeaves.createNode (h : PageNumbers ih) : KeepsLeaves ih ih.createNode.2 := by
  have hgrown : PageNumbers { ih with fd2pageno := ih.fd2pageno + 1 } :=
    ⟨h.pageNo, fun p node hnode => ⟨(h.range p node hnode).1, Int.lt_trans (h.range p node hnode).2 (Int.lt_succ _)⟩,
      h.header⟩
  have hwrite := KeepsLeaves.writeNode hgrown
    (show 0 < (emptyNode ih.fd2pageno : IxNodeHandle K).pageNo ∧
      (emptyNode ih.fd2pageno : IxNodeHandle K).pageNo < ih.fd2pageno + 1
      from ⟨h.fd2pageno_pos, Int.lt_succ _⟩) h.leafAt_fd2pageno.symm
  exact ⟨extends_createNode, ⟨hwrite.numbered.pageNo, hwrite.numbered.range, hwrite.numbered.header⟩, hwrite.leafAt⟩

theorem PageNumbers.internal_createNode (h : PageNumbers ih) : Internal ih.createNode.2 ih.fd2pageno :=
  ⟨⟨h.fd2pageno_pos, Int.lt_succ _⟩, (KeepsLeaves.createNode h).leafAt ▸ h.leafAt_fd2pageno⟩

theorem KeepsLeaves.split {r : ℤ × IxIndexHandle K} (h : PageNumbers ih) (hp : ih.Holds p)
    (hleaf : (ih.nodeAt p).isLeaf = false) (hrun : ih.split p = .ok r) : KeepsLeaves ih r.2 := by
  have hcreate := KeepsLeaves.createNode h
  obtain ⟨node, hnode, hpage⟩ := hp
  have hrange := h.range p node hnode
  have hself : ih.nodeAt p = node := by rw [nodeAt, hnode, Option.getD_some]
  rw [split_eq ⟨node, hnode, hpage⟩ (Int.ne_of_lt hrange.2), if_neg (by rw [hleaf]; exact Bool.false_ne_true)] at hrun
  obtain ⟨ih₁, hsplit, hrun⟩ := bind_eq_ok.mp hrun
  cases hrun
  rw [hself] at hleaf hsplit
  have hinternal : Internal ih.createNode.2 node.pageNo := by
    rw [hpage]
    exact (h.internal hnode hleaf).keeps hcreate
  exact hcreate.trans (.splitInternal hcreate.numbered hinternal hleaf (by exact h.internal_createNode) (by exact hleaf) hsplit)

theorem KeepsLeaves.growRoot {key : K} (h : PageNumbers ih) (hrun : ih.growRoot p key q = .ok ih') : KeepsLeaves ih ih' := by
  have hcreate := KeepsLeaves.createNode h
  rw [growRoot_bind] at hrun
  obtain ⟨ih₁, hroot, hrun⟩ := bind_eq_ok.mp hrun
  obtain ⟨ih₂, hleft, hrun⟩ := bind_eq_ok.mp hrun
  obtain ⟨ih₃, hright, hrun⟩ := bind_eq_ok.mp hrun
  cases hrun
  have hfirst : KeepsLeaves ih ih₁ := by
    refine hcreate.trans (.updateNode (f := newRoot p key q) hcreate.numbered (fun _ => rfl) (fun node hnode => ?_) hroot)
    rw [← leafAt_of_pages hnode, h.internal_createNode.leafAt]
    rfl
  have hsecond := hfirst.trans (.setParent hfirst.numbered hleft)
  have hthird := hsecond.trans (.setParent hsecond.numbered hright)
  exact ⟨⟨hthird.holds, hthird.fd2pageno, hthird.btreeOrder, hthird.firstLeaf, hthird.lastLeaf, hthird.unique⟩,
    ⟨hthird.numbered.pageNo, hthird.numbered.range, hthird.numbered.header⟩, hthird.leafAt⟩

/-- The leaves have nothing to do with what happens above them. -/
theorem KeepsLeaves.insertIntoParent {fuel : ℕ} {key : K} (h : PageNumbers ih)
    (hrun : insertIntoParent cmp fuel ih p key q = .ok ih') : KeepsLeaves ih ih' := by
  induction fuel generalizing ih p key q with
  | zero => cases hrun
  | succ fuel hrec =>
    unfold IxIndexHandle.insertIntoParent at hrun
    obtain ⟨old, -, hrun⟩ := bind_eq_ok.mp hrun
    split at hrun
    · exact .growRoot h hrun
    · obtain ⟨parent, hfetch, hrun⟩ := bind_eq_ok.mp hrun
      obtain ⟨parent', hinsert, hrun⟩ := bind_eq_ok.mp hrun
      have hnode := fetchNode_ok hfetch
      obtain ⟨hleaf, hpage, hleaf'⟩ := insertPair_isLeaf hinsert
      have hnumber := h.pageNo _ _ hnode
      have hinternal : Internal ih parent'.pageNo := by
        rw [hpage, hnumber]
        exact h.internal hnode hleaf
      have hwrite := hinternal.writeNode h hleaf'
      dsimp only at hrun
      split at hrun
      · obtain ⟨r, hsplit, hrun⟩ := bind_eq_ok.mp hrun
        have hinternal' : ((ih.writeNode parent').nodeAt parent'.pageNo).isLeaf = false := by
          rw [nodeAt_writeNode, Function.update_self]
          exact hleaf'
        have hupper := hwrite.trans (.split hwrite.numbered holds_writeNode hinternal' hsplit)
        exact hupper.trans (hrec hupper.numbered hrun)
      · cases hrun
        exact hwrite

/-! ### The chain of the leaves -/

theorem leafAt_eq (ih : IxIndexHandle K) (p : ℤ) : ih.leafAt p = (ih.nodeAt p).asLeaf := by
  unfold IxIndexHandle.leafAt nodeAt
  cases ih.pages p with
  | none => rfl
  | some node => rfl

omit [Inhabited K] in
/-- What two nodes share that are one leaf but for the parent. -/
theorem leaf_of_asLeaf_eq {a b : IxNodeHandle K} (h : a.asLeaf = b.asLeaf) :
    a.isLeaf = b.isLeaf ∧ (b.isLeaf = true → a.entries = b.entries ∧ a.nextLeaf = b.nextLeaf) := by
  unfold IxNodeHandle.asLeaf at h
  cases ha : a.isLeaf with
  | false =>
    cases hb : b.isLeaf with
    | false => exact ⟨rfl, nofun⟩
    | true => simp [ha, hb] at h
  | true =>
    cases hb : b.isLeaf with
    | false => simp [ha, hb] at h
    | true =>
      rw [ha, hb, if_pos rfl, if_pos rfl, Option.some.injEq] at h
      have hentries := congrArg IxNodeHandle.entries h
      have hnext := congrArg IxNodeHandle.nextLeaf h
      exact ⟨rfl, fun _ => ⟨hentries, hnext⟩⟩

theorem KeepsLeaves.leaf (h : KeepsLeaves ih ih') (p : ℤ) : (ih'.nodeAt p).isLeaf = (ih.nodeAt p).isLeaf ∧
    ((ih.nodeAt p).isLeaf = true →
      (ih'.nodeAt p).entries = (ih.nodeAt p).entries ∧ (ih'.nodeAt p).nextLeaf = (ih.nodeAt p).nextLeaf) :=
  leaf_of_asLeaf_eq (by rw [← leafAt_eq, ← leafAt_eq, h.leafAt])

theorem PageNumbers.holds_of_isLeaf (h : PageNumbers ih) (hleaf : (ih.nodeAt p).isLeaf = true) : ih.Holds p := by
  unfold nodeAt at hleaf
  cases hpage : ih.pages p with
  | none =>
    rw [hpage] at hleaf
    cases hleaf
  | some node => exact ⟨node, hpage, h.pageNo p node hpage⟩

/-- The leaves of the file in the order of their links. -/
structure LeafPages (ih : IxIndexHandle K) (pages : List ℤ) : Prop where
  nodup : pages.Nodup
  mem_iff : ∀ p, p ∈ pages ↔ p ≠ ixLeafHeaderPage ∧ (ih.nodeAt p).isLeaf = true
  firstLeaf : pages.head? = some ih.fileHdr.firstLeaf
  links : (pages ++ [ixLeafHeaderPage]).IsChain fun p q => (ih.nodeAt p).nextLeaf = q

theorem entriesIn_append (ih : IxIndexHandle K) (l₁ l₂ : List ℤ) :
    ih.entriesIn (l₁ ++ l₂) = ih.entriesIn l₁ ++ ih.entriesIn l₂ := List.flatMap_append ..

theorem entriesIn_cons (ih : IxIndexHandle K) (p : ℤ) (l : List ℤ) :
    ih.entriesIn (p :: l) = (ih.nodeAt p).entries ++ ih.entriesIn l := List.flatMap_cons ..

namespace LeafPages

variable {pages l₁ l₂ : List ℤ}

theorem congr (h : LeafPages ih pages) (hfirst : ih'.fileHdr.firstLeaf = ih.fileHdr.firstLeaf)
    (hleaf : ∀ p, (ih'.nodeAt p).isLeaf = (ih.nodeAt p).isLeaf)
    (hnext : ∀ p ∈ pages, (ih'.nodeAt p).nextLeaf = (ih.nodeAt p).nextLeaf) : LeafPages ih' pages where
  nodup := h.nodup
  mem_iff p := by rw [hleaf p, h.mem_iff p]
  firstLeaf := by rw [hfirst, h.firstLeaf]
  links := isChain_concat_imp (fun p hp q _ hpq => (hnext p hp).trans hpq) h.links

theorem keeps (h : LeafPages ih pages) (hk : KeepsLeaves ih ih') :
    LeafPages ih' pages ∧ ih'.entriesIn pages = ih.entriesIn pages := by
  have hleaf : ∀ p ∈ pages, (ih.nodeAt p).isLeaf = true := fun p hp => ((h.mem_iff p).mp hp).2
  refine ⟨h.congr hk.firstLeaf (fun p => (hk.leaf p).1) fun p hp => ((hk.leaf p).2 (hleaf p hp)).2, ?_⟩
  exact List.flatMap_congr fun p hp => ((hk.leaf p).2 (hleaf p hp)).1

/-- The page behind a leaf. -/
theorem exists_next (h : LeafPages ih pages) (hsplit : pages = l₁ ++ p :: l₂) :
    ∃ next rest, l₂ ++ [ixLeafHeaderPage] = next :: rest ∧ (ih.nodeAt p).nextLeaf = next ∧
      (l₁ ++ [p]).IsChain (fun p q => (ih.nodeAt p).nextLeaf = q) ∧
      (l₂ ++ [ixLeafHeaderPage]).IsChain fun p q => (ih.nodeAt p).nextLeaf = q := by
  have hlinks := h.links
  rw [hsplit, List.append_assoc, List.cons_append] at hlinks
  cases hnext : l₂ ++ [ixLeafHeaderPage] with
  | nil => simp at hnext
  | cons next rest =>
    rw [hnext, List.isChain_append_cons_cons] at hlinks
    exact ⟨next, rest, rfl, hlinks.2.1, hlinks.1, hlinks.2.2⟩

/-- A split leaf stays where it was in the chain, with its right half behind it. -/
theorem split {r : ℤ × IxIndexHandle K} (h : LeafPages ih pages) (hn : PageNumbers ih) (hsplit : pages = l₁ ++ p :: l₂)
    (hrun : ih.split p = .ok r) : LeafPages r.2 (l₁ ++ p :: r.1 :: l₂) ∧
      r.2.entriesIn (l₁ ++ p :: r.1 :: l₂) = ih.entriesIn pages ∧ Extends ih r.2 := by
  obtain ⟨next, rest, hbehind, hlink, hfront, hback⟩ := h.exists_next hsplit
  have hmem : ∀ q, q ∈ l₁ ∨ q = p ∨ q ∈ l₂ ↔ q ∈ pages := fun q => by rw [hsplit]; simp
  have hleafMem : ∀ q ∈ pages, (ih.nodeAt q).isLeaf = true := fun q hq => ((h.mem_iff q).mp hq).2
  have hpMem := (hmem p).mp (.inr (.inl rfl))
  have hpHeld := hn.holds_of_isLeaf (hleafMem p hpMem)
  have hpRange := hn.range_of_holds hpHeld
  have hnodup := h.nodup
  rw [hsplit, List.nodup_middle, List.nodup_cons, List.mem_append] at hnodup
  have hnextHeld : ih.Holds next ∧ next ≠ p := by
    have hnextMem : next ∈ l₂ ++ [ixLeafHeaderPage] := hbehind ▸ List.mem_cons_self
    rw [List.mem_append, List.mem_singleton] at hnextMem
    cases hnextMem with
    | inl hin =>
      refine ⟨hn.holds_of_isLeaf (hleafMem next ((hmem next).mp (.inr (.inr hin)))), fun heq => hnodup.1 (.inr (heq ▸ hin))⟩
    | inr hheader =>
      refine ⟨hheader ▸ hn.header, fun heq => ((h.mem_iff p).mp hpMem).1 (heq ▸ hheader)⟩
  have hnextRange := hn.range_of_holds hnextHeld.1
  have hends := split_leaf_ends hpHeld (Int.ne_of_lt hpRange.2) (hleafMem p hpMem) (hlink ▸ hnextHeld.1)
    (by rw [hlink]; unfold ixNoPage; omega) (hlink ▸ hnextHeld.2) (by rw [hlink]; omega)
  rw [hrun] at hends
  obtain ⟨hnew, hext, -, -, right, hpage, hhalf, hnodes⟩ := hends
  have hleft : r.2.nodeAt p = { ih.nodeAt p with numKey := ((ih.nodeAt p).numKey + 1) / 2, nextLeaf := right.pageNo } := by
    rw [hnodes, leafSplitPages, hpHeld.pageNo, Function.update_self]
    congr 1
    exact hpHeld.pageNo.symm
  have hright : r.2.nodeAt r.1 = right := by
    rw [hnodes, hnew, leafSplitPages, hpHeld.pageNo, hlink, hpage, Function.update_of_ne (by omega),
      Function.update_of_ne (by omega), Function.update_self]
  -- the page behind learns of its new neighbor, which is all that happens to the others
  have hother : ∀ q, q ≠ p → q ≠ r.1 → (r.2.nodeAt q).isLeaf = (ih.nodeAt q).isLeaf ∧
      (r.2.nodeAt q).entries = (ih.nodeAt q).entries ∧ (r.2.nodeAt q).nextLeaf = (ih.nodeAt q).nextLeaf := by
    intro q hqp hqnew
    rw [hnew] at hqnew
    rw [hnodes, leafSplitPages, hpHeld.pageNo, hlink, hpage, Function.update_of_ne hqp]
    by_cases hqnext : q = next
    · rw [hqnext, Function.update_self]
      exact ⟨rfl, rfl, rfl⟩
    · rw [Function.update_of_ne hqnext, Function.update_of_ne hqnew]
      exact ⟨rfl, rfl, rfl⟩
  have hfresh : ∀ q ∈ pages, q ≠ r.1 := by
    intro q hq
    have := hn.range_of_holds (hn.holds_of_isLeaf (hleafMem q hq))
    omega
  have hside : ∀ q, q ∈ l₁ ∨ q ∈ l₂ → q ≠ p ∧ q ≠ r.1 := by
    intro q hq
    refine ⟨fun heq => hnodup.1 (heq ▸ hq), hfresh q ((hmem q).mp ?_)⟩
    exact hq.elim .inl fun hq => .inr (.inr hq)
  have hsame : ∀ l : List ℤ, (∀ q ∈ l, q ≠ p ∧ q ≠ r.1) → r.2.entriesIn l = ih.entriesIn l := fun l hl =>
    List.flatMap_congr fun q hq => (hother q (hl q hq).1 (hl q hq).2).2.1
  have hchain : ∀ (l : List ℤ) (q : ℤ), (∀ q ∈ l, q ≠ p ∧ q ≠ r.1) →
      (l ++ [q]).IsChain (fun p q => (ih.nodeAt p).nextLeaf = q) →
      (l ++ [q]).IsChain fun p q => (r.2.nodeAt p).nextLeaf = q := fun l q hl =>
    isChain_concat_imp fun a ha c _ hac => ((hother a (hl a ha).1 (hl a ha).2).2.2).trans hac
  have hfront' := hchain l₁ p (fun q hq => hside q (.inl hq)) hfront
  have hback' := hchain l₂ _ (fun q hq => hside q (.inr hq)) hback
  refine ⟨⟨?_, fun q => ?_, ?_, ?_⟩, ?_, extends_createNode.trans hext⟩
  · have hperm : (l₁ ++ p :: r.1 :: l₂).Perm (r.1 :: pages) := by
      rw [hsplit, List.append_cons]
      exact List.perm_middle.trans (by rw [← List.append_cons])
    exact hperm.nodup_iff.mpr (List.nodup_cons.mpr ⟨fun hmem => hfresh r.1 hmem rfl, h.nodup⟩)
  · have hiff : q ∈ l₁ ++ p :: r.1 :: l₂ ↔ q = r.1 ∨ q ∈ pages := by
      rw [← hmem q]
      simp only [List.mem_append, List.mem_cons]
      tauto
    rw [hiff]
    by_cases hqnew : q = r.1
    · rw [hqnew, hright, hhalf.isLeaf]
      have hheader := hn.range_of_holds hn.header
      refine iff_of_true (.inl rfl) ⟨by omega, rfl⟩
    · rw [or_iff_right hqnew, h.mem_iff q]
      by_cases hqp : q = p
      · rw [hqp, hleft]
      · rw [(hother q hqp hqnew).1]
  · rw [extends_createNode.trans hext |>.firstLeaf, ← h.firstLeaf, hsplit]
    cases l₁ with
    | nil => rfl
    | cons first l₁ => rfl
  · rw [List.append_assoc, List.cons_append, List.cons_append, hbehind, List.isChain_append_cons_cons,
      List.isChain_cons_cons, hleft, hright, ← hbehind]
    exact ⟨hfront', hpage.trans hnew.symm, hhalf.nextLeaf.trans hlink, hback'⟩
  · have hentries : (r.2.nodeAt p).entries ++ (r.2.nodeAt r.1).entries = (ih.nodeAt p).entries := by
      have hle : ((ih.nodeAt p).numKey + 1) / 2 ≤ (ih.nodeAt p).numKey := by omega
      have htake : (r.2.nodeAt p).entries = (ih.nodeAt p).entries.take (((ih.nodeAt p).numKey + 1) / 2) := by
        rw [hleft]
        exact entries_eq_take rfl rfl hle
      rw [hright, hhalf.entries, htake, List.take_append_drop]
    rw [hsplit, entriesIn_append, entriesIn_cons, entriesIn_cons, ← List.append_assoc (r.2.nodeAt p).entries, hentries,
      hsame l₁ fun q hq => hside q (.inl hq), hsame l₂ fun q hq => hside q (.inr hq), entriesIn_append, entriesIn_cons]

/-- A leaf with a new entry. -/
theorem writeLeaf {e : K × Rid} (h : LeafPages ih pages) (hmem : node.pageNo ∈ pages) (hleaf : node.isLeaf = true)
    (hnext : node.nextLeaf = (ih.nodeAt node.pageNo).nextLeaf)
    (hentries : node.entries.Perm (e :: (ih.nodeAt node.pageNo).entries)) :
    LeafPages (ih.writeNode node) pages ∧ ((ih.writeNode node).entriesIn pages).Perm (e :: ih.entriesIn pages) := by
  have hself : (ih.writeNode node).nodeAt node.pageNo = node := by rw [nodeAt_writeNode, Function.update_self]
  have hother : ∀ q, q ≠ node.pageNo → (ih.writeNode node).nodeAt q = ih.nodeAt q := fun q hq => by
    rw [nodeAt_writeNode, Function.update_of_ne hq]
  constructor
  · refine h.congr rfl (fun q => ?_) fun q _ => ?_
    · by_cases hq : q = node.pageNo
      · rw [hq, hself, hleaf, ((h.mem_iff _).mp hmem).2]
      · rw [hother q hq]
    · by_cases hq : q = node.pageNo
      · rw [hq, hself, hnext]
      · rw [hother q hq]
  · obtain ⟨l₁, l₂, hsplit⟩ := List.append_of_mem hmem
    have hnodup := h.nodup
    rw [hsplit, List.nodup_middle, List.nodup_cons, List.mem_append] at hnodup
    have hsame : ∀ l : List ℤ, node.pageNo ∉ l → (ih.writeNode node).entriesIn l = ih.entriesIn l := fun l hl =>
      List.flatMap_congr fun q hq => by rw [hother q fun heq => hl (heq ▸ hq)]
    have hfront := hsame l₁ fun hin => hnodup.1 (.inl hin)
    have hback := hsame l₂ fun hin => hnodup.1 (.inr hin)
    rw [hsplit, entriesIn_append, entriesIn_append, entriesIn_cons, entriesIn_cons, hself, hfront, hback]
    exact ((hentries.append_right _).append_left _).trans List.perm_middle

end LeafPages

/-! ### Insertions into an index without equal keys -/

omit [Inhabited K] in
theorem findLeafFrom_ok {fuel : ℕ} {key : K} {leaf : IxNodeHandle K} (h : PageNumbers ih)
    (hrun : ih.findLeafFrom cmp key fuel p = .ok leaf) : ih.pages leaf.pageNo = some leaf := by
  induction fuel generalizing p with
  | zero => cases hrun
  | succ fuel hrec =>
    unfold IxIndexHandle.findLeafFrom at hrun
    obtain ⟨node, hfetch, hrun⟩ := bind_eq_ok.mp hrun
    split at hrun
    · cases hrun
      rw [h.pageNo p _ (fetchNode_ok hfetch)]
      exact fetchNode_ok hfetch
    · obtain ⟨child, -, hrun⟩ := bind_eq_ok.mp hrun
      exact hrec hrun

omit [Inhabited K] in
/-- A key that the lookup has not found goes into the leaf. -/
theorem insert_of_leafLookup {hdr : IxFileHdr} {key : K} {value : Rid} {leaf leaf' : IxNodeHandle K}
    (hsymm : ∀ a b, cmp a b = .eq → cmp b a = .eq) (hlookup : leaf.leafLookup cmp key = .ok none)
    (hrun : leaf.insert cmp hdr key value = .ok leaf') : ∃ (keys : ℕ → K) (rids : ℕ → Rid),
      leaf' = { leaf with keys := keys, rids := rids, numKey := leaf.numKey + 1 } ∧
      leaf'.entries.Perm ((key, value) :: leaf.entries) := by
  obtain ⟨_, -, hlookup⟩ := bind_eq_ok.mp hlookup
  have habsent : ¬(leaf.lowerBound cmp key < leaf.numKey ∧ cmp (leaf.keys (leaf.lowerBound cmp key)) key = .eq) := by
    intro ⟨hlt, heq⟩
    have hne : leaf.lowerBound cmp key ≠ leaf.numKey := Nat.ne_of_lt hlt
    simp only [hne, hsymm _ _ heq, if_false, ne_eq, not_true_eq_false] at hlookup
    cases hlookup
  unfold IxNodeHandle.insert at hrun
  dsimp only at hrun
  rw [if_neg habsent] at hrun
  obtain ⟨_, hpos, hrun⟩ := bind_eq_ok.mp hrun
  obtain ⟨_, -, hrun⟩ := bind_eq_ok.mp hrun
  obtain ⟨_, -, hrun⟩ := bind_eq_ok.mp hrun
  cases hrun
  have hle : leaf.lowerBound cmp key ≤ leaf.numKey := Bisect.search_le_right (Nat.zero_le _)
  refine ⟨_, _, rfl, ?_⟩
  rw [insertMany_one, insertMany_one]
  exact toList_insertAt_pairs leaf.keys leaf.rids key value hle

/-- A unique index whose leaves can be followed from the first to the last. -/
structure Chained (ih : IxIndexHandle K) (pages : List ℤ) : Prop extends LeafPages ih pages where
  usable : Usable ih
  lastLeaf : pages.getLast? = some ih.fileHdr.lastLeaf
  unique : ih.unique = true

theorem LeafPages.splitFullLeaf {pages : List ℤ} (h : LeafPages ih pages) (hn : PageNumbers ih)
    (hsplitNumbered : ∀ r, ih.split p = .ok r → PageNumbers r.2)
    (hlast : pages.getLast? = some ih.fileHdr.lastLeaf) (hp : p ∈ pages) (hrun : ih.splitFullLeaf cmp p = .ok ih') :
    ∃ pages', LeafPages ih' pages' ∧ pages'.getLast? = some ih'.fileHdr.lastLeaf ∧ ih'.unique = ih.unique ∧
      ih'.entriesIn pages' = ih.entriesIn pages := by
  obtain ⟨l₁, l₂, hsplit⟩ := List.append_of_mem hp
  obtain ⟨r, hsplitRun, hrun⟩ := bind_eq_ok.mp hrun
  obtain ⟨newLeaf, -, hrun⟩ := bind_eq_ok.mp hrun
  obtain ⟨ih₁, hparent, hrun⟩ := bind_eq_ok.mp hrun
  obtain ⟨hpages, hentries, hext⟩ := h.split hn hsplit hsplitRun
  have hkeeps := KeepsLeaves.insertIntoParent (hsplitNumbered r hsplitRun) hparent
  obtain ⟨hpages₁, hentries₁⟩ := hpages.keeps hkeeps
  have hlastLeaf : ih₁.fileHdr.lastLeaf = ih.fileHdr.lastLeaf := hkeeps.lastLeaf.trans hext.lastLeaf
  have hunique : ih₁.unique = ih.unique := hkeeps.unique.trans hext.unique
  refine ⟨l₁ ++ p :: r.1 :: l₂, ?_⟩
  cases l₂ with
  | nil =>
    have hlastP : p = ih₁.fileHdr.lastLeaf := by
      rw [hsplit, List.getLast?_append] at hlast
      rw [hlastLeaf]
      exact Option.some.inj hlast
    rw [if_pos hlastP] at hrun
    cases hrun
    refine ⟨⟨hpages₁.nodup, hpages₁.mem_iff, hpages₁.firstLeaf, hpages₁.links⟩, ?_, hunique, hentries₁.trans hentries⟩
    rw [List.append_cons, List.getLast?_append]
    rfl
  | cons q l₂ =>
    have hend : ∀ l : List ℤ, (l ++ q :: l₂).getLast? = (q :: l₂).getLast? := fun l =>
      List.getLast?_append_of_ne_nil l (List.cons_ne_nil q l₂)
    rw [hsplit, List.append_cons, hend] at hlast
    have hnotLast : p ≠ ih₁.fileHdr.lastLeaf := by
      intro heq
      have hnodup := h.nodup
      rw [hsplit, List.nodup_middle, List.nodup_cons, List.mem_append] at hnodup
      refine hnodup.1 (.inr ?_)
      rw [heq, hlastLeaf]
      exact List.mem_of_getLast? hlast
    rw [if_neg hnotLast] at hrun
    cases hrun
    refine ⟨hpages₁, ?_, hunique, hentries₁.trans hentries⟩
    rw [hlastLeaf, ← hlast, List.append_cons, List.append_cons, hend]

omit [Inhabited K] in
/-- What a call on a unique index has done that returns. -/
theorem insertEntry_ok [Inhabited K] {key : K} {value : Rid} {r : ℤ × IxIndexHandle K} (hunique : ih.unique = true)
    (hrun : ih.insertEntry cmp key value = .ok r) : ∃ leaf leaf', ih.findLeafPage cmp key = .ok leaf ∧
      leaf.leafLookup cmp key = .ok none ∧ leaf.insert cmp ih.fileHdr key value = .ok leaf' ∧
      (if leaf'.numKey = ih.fileHdr.maxSize then (ih.writeNode leaf').splitFullLeaf cmp leaf'.pageNo
        else .ok (ih.writeNode leaf')) = .ok r.2 := by
  unfold IxIndexHandle.insertEntry at hrun
  rw [if_pos hunique] at hrun
  obtain ⟨found, hget, hrun⟩ := bind_eq_ok.mp hrun
  obtain ⟨leaf, hfind, hlookup⟩ := bind_eq_ok.mp hget
  cases found with
  | some rid => cases hrun
  | none =>
    obtain ⟨leaf₁, hfind₁, hrun⟩ := bind_eq_ok.mp hrun
    rw [hfind] at hfind₁
    cases hfind₁
    obtain ⟨leaf', hinsert, hrun⟩ := bind_eq_ok.mp hrun
    refine ⟨leaf, leaf', hfind, hlookup, hinsert, ?_⟩
    dsimp only at hrun
    split at hrun
    · next hfull =>
      obtain ⟨ih₁, hsplit, hrun⟩ := bind_eq_ok.mp hrun
      cases hrun
      exact (if_pos hfull).trans hsplit
    · next hroom =>
      cases hrun
      exact if_neg hroom

/-- An insertion that returns has added its entry, whatever else it has done. -/
theorem Chained.insertEntry {pages : List ℤ} {key : K} {value : Rid} {r : ℤ × IxIndexHandle K} (h : Chained ih pages)
    (hsymm : ∀ a b, cmp a b = .eq → cmp b a = .eq) (hrun : ih.insertEntry cmp key value = .ok r) :
    ∃ pages', Chained r.2 pages' ∧ (r.2.entriesIn pages').Perm ((key, value) :: ih.entriesIn pages) := by
  obtain ⟨⟨height, hsound⟩, hroot⟩ := h.usable
  have hn := hsound.numbered
  -- the tree itself
  have hends := hsound.insertEntry cmp hroot key value
  rw [hrun] at hends
  obtain ⟨height', hev⟩ := hends
  have husable : Usable r.2 := ⟨⟨height', hev.sound⟩, hev.usable hroot⟩
  obtain ⟨leaf, leaf', hfind, hlookup, hinsert, hrest⟩ := insertEntry_ok h.unique hrun
  have hleaves := hsound.findLeafPage cmp hroot key
  rw [hfind] at hleaves
  obtain ⟨hheld, hleaf, hplaced⟩ := hleaves
  have hpage := findLeafFrom_ok hn hfind
  have hself : ih.nodeAt leaf.pageNo = leaf := by rw [nodeAt, hpage, Option.getD_some]
  have hmem : leaf.pageNo ∈ pages := (h.mem_iff _).mpr ⟨Int.ne_of_gt hheld.2, hself.symm ▸ hleaf⟩
  -- the entry is in the leaf
  obtain ⟨keys, rids, hnode, hentries⟩ := insert_of_leafLookup hsymm hlookup hinsert
  have hpage' : leaf'.pageNo = leaf.pageNo := by rw [hnode]
  have hleaf' : leaf'.isLeaf = true := by rw [hnode]; exact hleaf
  have hplaced' : Placed height ih (height leaf'.pageNo) leaf' := by
    rw [hpage', hnode]
    exact ⟨hplaced.isLeaf, hplaced.parent, hplaced.links, fun hfalse => absurd (hfalse.symm.trans hleaf) Bool.false_ne_true⟩
  have hwrite := hsound.writeNode leaf' (hpage' ▸ hheld.1) hplaced'
  obtain ⟨hpages, hperm⟩ := h.writeLeaf (hpage' ▸ hmem) hleaf' (by rw [hpage', hself, hnode])
    (by rw [hpage', hself]; exact hentries)
  split at hrest
  · have hsplitNumbered : ∀ s, (ih.writeNode leaf').split leaf'.pageNo = .ok s → PageNumbers s.2 := by
      intro s hs
      have hsplits := hwrite.sound.split (p := leaf'.pageNo) ⟨hwrite.holdsNode (hpage' ▸ hheld), rfl⟩
      rw [hs] at hsplits
      exact hsplits.2.sound.numbered
    obtain ⟨pages', hpages', hlast', hunique', hentries'⟩ := hpages.splitFullLeaf hwrite.sound.numbered hsplitNumbered
      h.lastLeaf (hpage' ▸ hmem) hrest
    exact ⟨pages', ⟨hpages', husable, hlast', hunique'.trans h.unique⟩, hentries' ▸ hperm⟩
  · have hsame : r.2 = ih.writeNode leaf' := (Except.ok.inj hrest).symm
    rw [hsame] at husable ⊢
    exact ⟨pages, ⟨hpages, husable, h.lastLeaf, h.unique⟩, hperm⟩

theorem Chained.insertEntries {pages : List ℤ} (h : Chained ih pages) (hsymm : ∀ a b, cmp a b = .eq → cmp b a = .eq)
    (entries : List (K × Rid)) (hrun : ih.insertEntries cmp entries = .ok ih') :
    ∃ pages', Chained ih' pages' ∧ (ih'.entriesIn pages').Perm (entries ++ ih.entriesIn pages) := by
  induction entries generalizing ih pages with
  | nil =>
    cases hrun
    exact ⟨pages, h, .refl _⟩
  | cons e entries hrec =>
    unfold IxIndexHandle.insertEntries at hrun
    rw [List.foldlM_cons] at hrun
    obtain ⟨ih₁, hfirst, hrun⟩ := bind_eq_ok.mp hrun
    obtain ⟨r, hinsert, rfl⟩ : ∃ r, ih.insertEntry cmp e.1 e.2 = .ok r ∧ r.2 = ih₁ := by
      cases hcall : ih.insertEntry cmp e.1 e.2 with
      | error err =>
        rw [hcall] at hfirst
        cases hfirst
      | ok r =>
        rw [hcall] at hfirst
        exact ⟨r, rfl, Except.ok.inj hfirst⟩
    obtain ⟨pages₁, h₁, hperm₁⟩ := h.insertEntry hsymm hinsert
    obtain ⟨pages₂, h₂, hperm₂⟩ := hrec h₁ hrun
    exact ⟨pages₂, h₂, hperm₂.trans ((hperm₁.append_left entries).trans List.perm_middle)⟩

theorem chained_freshIndex (btreeOrder colTotLen : ℕ) :
    Chained (freshIndex btreeOrder colTotLen true : IxIndexHandle K) [ixInitRootPage] := by
  obtain ⟨ih, hih⟩ : ∃ ih : IxIndexHandle K, ih = freshIndex btreeOrder colTotLen true := ⟨_, rfl⟩
  have hroot : (ih.nodeAt ixInitRootPage).isLeaf = true ∧ (ih.nodeAt ixInitRootPage).nextLeaf = ixLeafHeaderPage := by
    rw [hih]
    exact ⟨rfl, rfl⟩
  have hother : ∀ p, p ≠ ixLeafHeaderPage → p ≠ ixInitRootPage → (ih.nodeAt p).isLeaf = false := by
    intro p hheader hinit
    rw [hih, nodeAt]
    change ((if p = ixLeafHeaderPage then _ else if p = ixInitRootPage then _ else none : Option (IxNodeHandle K)).getD
      (emptyNode p)).isLeaf = false
    rw [if_neg hheader, if_neg hinit]
    rfl
  have husable : Usable ih := hih ▸
    ⟨⟨_, sound_freshIndex btreeOrder colTotLen true⟩, holdsNode_freshIndex btreeOrder colTotLen true⟩
  have hheader : ih.fileHdr.firstLeaf = ixInitRootPage ∧ ih.fileHdr.lastLeaf = ixInitRootPage ∧ ih.unique = true := by
    rw [hih]
    exact ⟨rfl, rfl, rfl⟩
  rw [← hih]
  refine ⟨⟨List.nodup_singleton _, fun p => ?_, ?_, ?_⟩, husable, ?_, hheader.2.2⟩
  · rw [List.mem_singleton]
    constructor
    · rintro rfl
      exact ⟨by decide, hroot.1⟩
    · intro hleaf
      by_contra hinit
      obtain ⟨hne, hleaf⟩ := hleaf
      rw [hother p hne hinit] at hleaf
      cases hleaf
  · rw [hheader.1]
    rfl
  · exact List.isChain_pair.mpr hroot.2
  · rw [hheader.2.1]
    rfl

/-- The entries of the leaves, from the first leaf to the last one. -/
def leafEntries (ih : IxIndexHandle K) : Except IxError (List (K × Rid)) :=
  ih.entriesIn <$> ih.leafPagesFrom ih.fuel ih.fileHdr.firstLeaf

theorem Chained.leafEntries {pages : List ℤ} (h : Chained ih pages) : ih.leafEntries = .ok (ih.entriesIn pages) := by
  obtain ⟨⟨height, hsound⟩, -⟩ := h.usable
  have hn := hsound.numbered
  obtain ⟨rest, hrest⟩ : ∃ rest, pages = ih.fileHdr.firstLeaf :: rest := by
    have hfirst := h.firstLeaf
    cases pages with
    | nil => cases hfirst
    | cons first rest =>
      rw [List.head?_cons, Option.some.injEq] at hfirst
      exact ⟨rest, by rw [hfirst]⟩
  have hheld : ∀ p ∈ pages, ih.Holds p := fun p hp => hn.holds_of_isLeaf ((h.mem_iff p).mp hp).2
  have hlength : pages.length < ih.fd2pageno.toNat :=
    Pages.length_lt ⟨h.nodup, hheld, fun p hp => hn.range_of_holds (hheld p hp)⟩ hn.fd2pageno_pos
  have hfuel : rest.length < ih.fuel := by
    rw [hrest, List.length_cons] at hlength
    unfold IxIndexHandle.fuel
    omega
  have hwalk : ih.leafPagesFrom ih.fuel ih.fileHdr.firstLeaf = .ok (ih.fileHdr.firstLeaf :: rest) :=
    leafPagesFrom_eq (hrest ▸ hheld) (hrest ▸ h.nodup) (hrest ▸ h.links.left_of_append) (hrest ▸ h.lastLeaf) hfuel
  unfold IxIndexHandle.leafEntries
  rw [hwalk, ← hrest]
  rfl

/-- A run of insertions on a unique index that returns has stored its entries, all of them and no others. -/
theorem leafEntries_of_insertEntries {btreeOrder colTotLen : ℕ} (hsymm : ∀ a b, cmp a b = .eq → cmp b a = .eq)
    {entries : List (K × Rid)} (hrun : (freshIndex btreeOrder colTotLen true).insertEntries cmp entries = .ok ih) :
    ∃ stored, ih.leafEntries = .ok stored ∧ stored.Perm entries := by
  obtain ⟨pages, hchained, hperm⟩ := (chained_freshIndex btreeOrder colTotLen).insertEntries hsymm entries hrun
  have hempty : (freshIndex btreeOrder colTotLen true : IxIndexHandle K).entriesIn [ixInitRootPage] = [] := rfl
  rw [hempty, List.append_nil] at hperm
  exact ⟨_, hchained.leafEntries, hperm⟩

end IxIndexHandle
end Rmdb
