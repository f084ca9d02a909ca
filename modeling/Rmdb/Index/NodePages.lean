import Rmdb.Index.Pages

/-! The page numbers that nodes name, whatever their entries are. Every page has a height, and a child is one lower
than its parent; so the slots of an internal node name nodes of the tree, also the slots behind the live ones. -/
namespace Rmdb

open SlotArray Program

namespace IxIndexHandle

variable {K : Type} {cmp : K → K → Ordering} {ih ih' ih'' : IxIndexHandle K} {height height' height'' : ℤ → ℕ} {n : ℕ}
  {p q : ℤ} {node : IxNodeHandle K}

/-- The call comes to an end and refuses no key, and what it returns satisfies `Q`. -/
abbrev Gives {α : Type} (Q : α → Prop) (x : Except IxError α) : Prop :=
  Ends (fun e => e ≠ .unfinished ∧ e ≠ .uniqueIndexViolation) Q x

theorem Gives.of_ends {α : Type} {Q : α → Prop} {x : Except IxError α} (h : Ends IxError.Stops Q x) : Gives Q x := by
  refine h.weaken fun e hstops => ?_
  rcases hstops with rfl | rfl
  · exact ⟨by simp, by simp⟩
  · exact ⟨by simp, by simp⟩

/-- The page is in the file, and not the leaf header. -/
def HoldsNode (ih : IxIndexHandle K) (p : ℤ) : Prop := ih.Holds p ∧ ixLeafHeaderPage < p

/-- A node of height `n`. -/
def AtHeight (height : ℤ → ℕ) (ih : IxIndexHandle K) (n : ℕ) (p : ℤ) : Prop := ih.HoldsNode p ∧ height p = n

/-- A slot of a node of height `n`: it was never written, or it names a node one lower. -/
def Slot (height : ℤ → ℕ) (ih : IxIndexHandle K) (n : ℕ) (rid : Rid) : Prop :=
  rid.pageNo = 0 ∨ ∃ m, n = m + 1 ∧ AtHeight height ih m rid.pageNo

/-- A node that may be written to a page of height `n`. -/
structure Placed (height : ℤ → ℕ) (ih : IxIndexHandle K) (n : ℕ) (node : IxNodeHandle K) : Prop where
  isLeaf : node.isLeaf = true ↔ n = 0
  parent : node.parent = ixNoPage ∨ AtHeight height ih (n + 1) node.parent
  links : node.isLeaf = true → ih.Holds node.prevLeaf ∧ ih.Holds node.nextLeaf
  slot : node.isLeaf = false → ∀ i, Slot height ih n (node.rids i)

structure Sound (height : ℤ → ℕ) (ih : IxIndexHandle K) : Prop where
  header : ih.Holds ixLeafHeaderPage
  pageNo : ∀ p node, ih.pages p = some node → node.pageNo = p
  range : ∀ p, ih.Holds p → 0 < p ∧ p < ih.fd2pageno
  placed : ∀ p node, ih.pages p = some node → Placed height ih (height p) node
  /-- There are more pages than heights. -/
  height_lt : ∀ p, ih.Holds p → ∃ q, ih.Holds q ∧ (height p : ℤ) < q

/-- What a change of a sound index keeps. The root is another one only if that is a node. -/
structure Evolves (height : ℤ → ℕ) (ih : IxIndexHandle K) (height' : ℤ → ℕ) (ih' : IxIndexHandle K) : Prop where
  sound : Sound height' ih'
  holds : ∀ p, ih.Holds p → ih'.Holds p
  height_eq : ∀ p, ih.Holds p → height' p = height p
  rootPage : ih'.fileHdr.rootPage = ih.fileHdr.rootPage ∨ ih'.HoldsNode ih'.fileHdr.rootPage

/-- A change that adds no page. -/
structure Rewrites (height : ℤ → ℕ) (ih ih' : IxIndexHandle K) : Prop extends Evolves height ih height ih' where
  fd2pageno : ih'.fd2pageno = ih.fd2pageno
  back : ∀ p, ih'.Holds p → ih.Holds p

/-- A change that adds one page, of height `n`. -/
structure Adds (height : ℤ → ℕ) (ih : IxIndexHandle K) (n : ℕ) (ih' : IxIndexHandle K) : Prop
    extends Evolves height ih (Function.update height ih.fd2pageno n) ih' where
  new : AtHeight (Function.update height ih.fd2pageno n) ih' n ih.fd2pageno
  fd2pageno : ih'.fd2pageno = ih.fd2pageno + 1
  back : ∀ p, ih'.Holds p → p = ih.fd2pageno ∨ ih.Holds p

namespace Evolves

theorem holdsNode (h : Evolves height ih height' ih') (hp : ih.HoldsNode p) : ih'.HoldsNode p := ⟨h.holds p hp.1, hp.2⟩

theorem trans (h : Evolves height ih height' ih') (h' : Evolves height' ih' height'' ih'') :
    Evolves height ih height'' ih'' where
  sound := h'.sound
  holds p hp := h'.holds p (h.holds p hp)
  height_eq p hp := (h'.height_eq p (h.holds p hp)).trans (h.height_eq p hp)
  rootPage := by
    rcases h'.rootPage with hroot' | hroot'
    · rcases h.rootPage with hroot | hroot
      · exact .inl (hroot'.trans hroot)
      · exact .inr (hroot' ▸ h'.holdsNode hroot)
    · exact .inr hroot'

theorem usable (h : Evolves height ih height' ih') (hroot : ih.HoldsNode ih.fileHdr.rootPage) :
    ih'.HoldsNode ih'.fileHdr.rootPage := by
  rcases h.rootPage with heq | hnew
  · rw [heq]
    exact h.holdsNode hroot
  · exact hnew

theorem atHeight (h : Evolves height ih height' ih') (hp : AtHeight height ih n p) : AtHeight height' ih' n p :=
  ⟨h.holdsNode hp.1, (h.height_eq p hp.1.1).trans hp.2⟩

end Evolves

theorem Rewrites.refl (h : Sound height ih) : Rewrites height ih ih := 
  ⟨⟨h, fun _ h => h, fun _ _ => rfl, .inl rfl⟩, rfl, fun _ h => h⟩

theorem Rewrites.trans (h : Rewrites height ih ih') (h' : Rewrites height ih' ih'') : Rewrites height ih ih'' :=
  ⟨h.toEvolves.trans h'.toEvolves, h'.fd2pageno.trans h.fd2pageno, fun p hp => h.back p (h'.back p hp)⟩

theorem Adds.trans (h : Adds height ih n ih') (h' : Rewrites (Function.update height ih.fd2pageno n) ih' ih'') :
    Adds height ih n ih'' :=
  ⟨h.toEvolves.trans h'.toEvolves, h'.atHeight h.new, h'.fd2pageno.trans h.fd2pageno, fun p hp => h.back p (h'.back p hp)⟩

/-- Where pages stay and keep their height, a node may still be written. -/
theorem Placed.mono (h : Placed height ih n node) (hholds : ∀ p, ih.Holds p → ih'.Holds p)
    (hkeep : ∀ m p, AtHeight height ih m p → AtHeight height' ih' m p) : Placed height' ih' n node where
  isLeaf := h.isLeaf
  parent := h.parent.imp_right (hkeep _ _)
  links hleaf := (h.links hleaf).imp (hholds _) (hholds _)
  slot hleaf i := (h.slot hleaf i).imp_right fun ⟨m, hm, hslot⟩ => ⟨m, hm, hkeep m _ hslot⟩

theorem Placed.evolves (h : Placed height ih n node) (hev : Evolves height ih height' ih') : Placed height' ih' n node :=
  h.mono hev.holds fun _ _ => hev.atHeight

theorem Placed.ne_zero (h : Placed height ih n node) (hleaf : node.isLeaf = false) : n ≠ 0 := by
  intro hn
  rw [h.isLeaf.mpr hn] at hleaf
  cases hleaf

namespace Sound

section

variable (h : Sound height ih)
include h

theorem holds (hnode : ih.pages p = some node) : ih.Holds p := ⟨node, hnode, h.pageNo p node hnode⟩

theorem ne_fd2pageno (hp : ih.Holds p) : p ≠ ih.fd2pageno := Int.ne_of_lt (h.range p hp).2

/-- A node above `p` would still be lower than the next page number. -/
theorem height_add_one_lt (hp : ih.Holds p) : (height p : ℤ) + 1 < ih.fd2pageno := by
  obtain ⟨q, hq, hlt⟩ := h.height_lt p hp
  have := (h.range q hq).2
  omega

theorem add_one_lt_fd2pageno (hp : AtHeight height ih n p) : ((n + 1 : ℕ) : ℤ) < ih.fd2pageno := by
  have hlt := h.height_add_one_lt hp.1.1
  rw [hp.2] at hlt
  omega

theorem lt_fd2pageno (hp : AtHeight height ih n p) : (n : ℤ) < ih.fd2pageno := by
  have := h.add_one_lt_fd2pageno hp
  omega

/-- A change of the file header alone. -/
theorem setHeader (ih' : IxIndexHandle K) (hpages : ih'.pages = ih.pages) (hcount : ih'.fd2pageno = ih.fd2pageno)
    (hroot : ih'.fileHdr.rootPage = ih.fileHdr.rootPage ∨ ih.HoldsNode ih'.fileHdr.rootPage) : Rewrites height ih ih' := by
  have hholds : ∀ p, ih'.Holds p ↔ ih.Holds p := fun p => by unfold Holds; rw [hpages]
  have hkeep : ∀ m p, AtHeight height ih m p → AtHeight height ih' m p := fun m p hp =>
    ⟨⟨(hholds p).mpr hp.1.1, hp.1.2⟩, hp.2⟩
  refine ⟨⟨⟨(hholds _).mpr h.header, ?_, fun p hp => ?_, ?_, fun p hp => ?_⟩, fun p => (hholds p).mpr, fun _ _ => rfl, ?_⟩,
    hcount, fun p => (hholds p).mp⟩
  · rw [hpages]
    exact h.pageNo
  · rw [hcount]
    exact h.range p ((hholds p).mp hp)
  · intro p node hnode
    rw [hpages] at hnode
    exact (h.placed p node hnode).mono (fun p => (hholds p).mpr) hkeep
  · obtain ⟨q, hq, hlt⟩ := h.height_lt p ((hholds p).mp hp)
    exact ⟨q, (hholds q).mpr hq, hlt⟩
  · exact hroot.imp_right fun hp => ⟨(hholds _).mpr hp.1, hp.2⟩

theorem writeNode (node : IxNodeHandle K) (hheld : ih.Holds node.pageNo)
    (hnode : Placed height ih (height node.pageNo) node) : Rewrites height ih (ih.writeNode node) := by
  have hkeep : ∀ m p, AtHeight height ih m p → AtHeight height (ih.writeNode node) m p := fun m p hp =>
    ⟨⟨hp.1.1.writeNode, hp.1.2⟩, hp.2⟩
  have hpages : ∀ p node', (ih.writeNode node).pages p = some node' →
      p = node.pageNo ∧ node' = node ∨ ih.pages p = some node' := by
    intro p node' hp
    by_cases heq : p = node.pageNo
    · have hself : (ih.writeNode node).pages p = some node := by
        rw [heq]
        exact Function.update_self ..
      exact .inl ⟨heq, (Option.some.inj (hself.symm.trans hp)).symm⟩
    · have hold : (ih.writeNode node).pages p = ih.pages p := Function.update_of_ne heq ..
      exact .inr (hold.symm.trans hp)
  have hback : ∀ p, (ih.writeNode node).Holds p → ih.Holds p := by
    intro p hp
    obtain ⟨node', hnode', -⟩ := hp
    rcases hpages p node' hnode' with ⟨rfl, -⟩ | hold
    · exact hheld
    · exact h.holds hold
  refine ⟨⟨⟨h.header.writeNode, fun p node' hp => ?_, fun p hp => h.range p (hback p hp), fun p node' hp => ?_, fun p hp => ?_⟩,
    fun p hp => hp.writeNode, fun _ _ => rfl, .inl rfl⟩, rfl, hback⟩
  · rcases hpages p node' hp with ⟨rfl, rfl⟩ | hold
    · rfl
    · exact h.pageNo p node' hold
  · rcases hpages p node' hp with ⟨rfl, rfl⟩ | hold
    · exact hnode.mono (fun p hp => hp.writeNode) hkeep
    · exact (h.placed p node' hold).mono (fun p hp => hp.writeNode) hkeep
  · obtain ⟨q, hq, hlt⟩ := h.height_lt p (hback p hp)
    exact ⟨q, hq.writeNode, hlt⟩

theorem updateNode {f : IxNodeHandle K → IxNodeHandle K} (hpage : ∀ node, (f node).pageNo = node.pageNo)
    (hf : ∀ node, Placed height ih (height p) node → Placed height ih (height p) (f node)) :
    Gives (fun ih' => Rewrites height ih ih') (ih.updateNode p f) := by
  unfold IxIndexHandle.updateNode IxIndexHandle.fetchNode
  split
  · next node hnode =>
    have hp : (f node).pageNo = p := (hpage node).trans (h.pageNo p node hnode)
    refine h.writeNode _ ?_ ?_
    · rw [hp]
      exact h.holds hnode
    · rw [hp]
      exact hf node (h.placed p node hnode)
  · exact ⟨by simp, by simp⟩

theorem setParent (hp : AtHeight height ih n p) (hq : AtHeight height ih (n + 1) q) :
    Gives (fun ih' => Rewrites height ih ih') (ih.updateNode p fun node => { node with parent := q }) :=
  h.updateNode (fun _ => rfl) fun _ hold => ⟨hold.isLeaf, .inr (hp.2 ▸ hq), hold.links, hold.slot⟩

theorem setPrevLeaf (hq : ih.Holds q) :
    Gives (fun ih' => Rewrites height ih ih') (ih.updateNode p fun node => { node with prevLeaf := q }) :=
  h.updateNode (fun _ => rfl) fun _ hold => ⟨hold.isLeaf, hold.parent, fun hleaf => ⟨hq, (hold.links hleaf).2⟩, hold.slot⟩

theorem setNextLeaf (hq : ih.Holds q) :
    Gives (fun ih' => Rewrites height ih ih') (ih.updateNode p fun node => { node with nextLeaf := q }) :=
  h.updateNode (fun _ => rfl) fun _ hold => ⟨hold.isLeaf, hold.parent, fun hleaf => ⟨(hold.links hleaf).1, hq⟩, hold.slot⟩

theorem fetchNode : Gives (fun node => ih.Holds p ∧ node.pageNo = p ∧ Placed height ih (height p) node) (ih.fetchNode p) := by
  unfold IxIndexHandle.fetchNode
  split
  · next node hnode => exact ⟨h.holds hnode, h.pageNo p node hnode, h.placed p node hnode⟩
  · exact ⟨by simp, by simp⟩

/-- A slot that was never written names the page of the file header, which holds no node. -/
theorem fetchNode_zero : ih.fetchNode 0 = .error .noPage := by
  unfold IxIndexHandle.fetchNode
  split
  · next node hnode => exact absurd (h.range 0 (h.holds hnode)).1 (Int.lt_irrefl 0)
  · rfl

theorem maintainChild (hp : AtHeight height ih n p) (childIdx : ℕ) :
    Gives (fun ih' => Rewrites height ih ih') (ih.maintainChild p childIdx) := by
  unfold IxIndexHandle.maintainChild
  refine h.fetchNode.bind fun node hnode => ?_
  obtain ⟨-, -, hplaced⟩ := hnode
  split
  · exact Rewrites.refl h
  · next hleaf =>
    refine (Gives.of_ends ends_assertThat).bind fun _ _ => ?_
    rcases hplaced.slot (Bool.not_eq_true _ ▸ hleaf) childIdx with hzero | ⟨m, hm, hslot⟩
    · have hvalue : node.valueAt childIdx = 0 := hzero
      rw [hvalue, IxIndexHandle.updateNode, h.fetchNode_zero]
      exact ⟨by simp, by simp⟩
    · refine h.setParent hslot ?_
      rw [← hm, hp.2]
      exact hp

theorem maintainChildren (hp : AtHeight height ih n p) (l : List ℕ) (f : ℕ → ℕ) :
    Gives (fun ih' => Rewrites height ih ih') (l.foldlM (fun ih i => ih.maintainChild p (f i)) ih) :=
  Ends.foldlM (fun _ hev i _ => (hev.sound.maintainChild (hev.atHeight hp) (f i)).mono fun _ hev' => hev.trans hev')
    (Rewrites.refl h)

theorem findLeafFrom (key : K) {fuel : ℕ} (hp : ih.HoldsNode p) (hfuel : height p < fuel) :
    Gives (fun leaf => ih.HoldsNode leaf.pageNo ∧ leaf.isLeaf = true ∧ Placed height ih (height leaf.pageNo) leaf)
      (ih.findLeafFrom cmp key fuel p) := by
  induction fuel generalizing p with
  | zero => exact absurd hfuel (Nat.not_lt_zero _)
  | succ fuel hrec =>
    unfold IxIndexHandle.findLeafFrom
    refine h.fetchNode.bind fun node hnode => ?_
    obtain ⟨-, hpage, hplaced⟩ := hnode
    split
    · next hleaf =>
      rw [← hpage] at hp hplaced
      exact ⟨hp, hleaf, hplaced⟩
    · next hleaf =>
      have hinternal : node.isLeaf = false := Bool.not_eq_true _ ▸ hleaf
      unfold IxNodeHandle.internalLookup
      refine Ends.bind (Q := fun child => child = node.valueAt (node.lowerBound cmp key))
        ((Gives.of_ends ends_assertThat).bind fun _ _ => rfl) fun child hchild => ?_
      have hpos := Nat.pos_of_ne_zero (hplaced.ne_zero hinternal)
      rcases hplaced.slot hinternal (node.lowerBound cmp key) with hzero | ⟨m, hm, hslot⟩
      · have hvalue : node.valueAt (node.lowerBound cmp key) = 0 := hzero
        obtain ⟨fuel, rfl⟩ := Nat.exists_eq_succ_of_ne_zero (show fuel ≠ 0 by omega)
        unfold IxIndexHandle.findLeafFrom
        rw [hchild, hvalue, h.fetchNode_zero]
        exact ⟨by simp, by simp⟩
      · have hchild' : child = (node.rids (node.lowerBound cmp key)).pageNo := hchild
        have hlower : height child = m := by
          rw [hchild']
          exact hslot.2
        exact hrec (hchild' ▸ hslot.1) (by omega)

theorem findLeafPage (cmp : K → K → Ordering) (hroot : ih.HoldsNode ih.fileHdr.rootPage) (key : K) :
    Gives (fun leaf => ih.HoldsNode leaf.pageNo ∧ leaf.isLeaf = true ∧ Placed height ih (height leaf.pageNo) leaf)
      (ih.findLeafPage cmp key) := by
  have hlt := h.height_add_one_lt hroot.1
  refine h.findLeafFrom key hroot ?_
  unfold IxIndexHandle.fuel
  omega

theorem getValue (hroot : ih.HoldsNode ih.fileHdr.rootPage) (key : K) : Gives (fun _ => True) (ih.getValue cmp key) := by
  unfold IxIndexHandle.getValue
  refine (h.findLeafPage cmp hroot key).bind fun leaf _ => ?_
  unfold IxNodeHandle.leafLookup
  refine (Gives.of_ends ends_assertThat).bind fun _ _ => ?_
  dsimp only
  split_ifs
  · trivial
  · trivial
  · trivial

variable [Inhabited K]

theorem placed_nodeAt (hp : ih.Holds p) : Placed height ih (height p) (ih.nodeAt p) := by
  obtain ⟨node, hnode, -⟩ := hp
  have hsame : ih.nodeAt p = node := by rw [nodeAt, hnode, Option.getD_some]
  rw [hsame]
  exact h.placed p node hnode

/-- The new page of `create_node` has the height that its first node needs. -/
theorem add (node : IxNodeHandle K) (n : ℕ) (hn : (n : ℤ) < ih.fd2pageno) (hpage : node.pageNo = ih.fd2pageno)
    (hnode : Placed height ih n node) : Adds height ih n (ih.createNode.2.writeNode node) := by
  have hholds : ∀ p, ih.Holds p → (ih.createNode.2.writeNode node).Holds p := fun p hp =>
    (extends_createNode.holds p hp).writeNode
  have hheight : ∀ p, ih.Holds p → Function.update height ih.fd2pageno n p = height p := fun p hp =>
    Function.update_of_ne (h.ne_fd2pageno hp) ..
  have hkeep : ∀ m p, AtHeight height ih m p →
      AtHeight (Function.update height ih.fd2pageno n) (ih.createNode.2.writeNode node) m p := fun m p hp =>
    ⟨⟨hholds p hp.1.1, hp.1.2⟩, (hheight p hp.1.1).trans hp.2⟩
  have hheader := (h.range _ h.header).2
  have hpages : ∀ p node', (ih.createNode.2.writeNode node).pages p = some node' →
      p = ih.fd2pageno ∧ node' = node ∨ p ≠ ih.fd2pageno ∧ ih.pages p = some node' := by
    intro p node' hp
    by_cases heq : p = ih.fd2pageno
    · subst heq
      have hself : (ih.createNode.2.writeNode node).pages ih.fd2pageno = some node := by
        rw [← hpage]
        exact Function.update_self ..
      exact .inl ⟨rfl, (Option.some.inj (hself.symm.trans hp)).symm⟩
    · have hold : (ih.createNode.2.writeNode node).pages p = ih.createNode.2.pages p :=
        Function.update_of_ne (by rw [hpage]; exact heq) ..
      have hold' : ih.createNode.2.pages p = ih.pages p := Function.update_of_ne heq ..
      exact .inr ⟨heq, (hold.trans hold').symm.trans hp⟩
  have hcount : (ih.createNode.2.writeNode node).fd2pageno = ih.fd2pageno + 1 := rfl
  have hback : ∀ p, (ih.createNode.2.writeNode node).Holds p → p = ih.fd2pageno ∨ ih.Holds p := by
    intro p hp
    obtain ⟨node', hnode', -⟩ := hp
    rcases hpages p node' hnode' with ⟨heq, -⟩ | ⟨-, hold⟩
    · exact .inl heq
    · exact .inr (h.holds hold)
  have hnew : (ih.createNode.2.writeNode node).Holds ih.fd2pageno := hpage ▸ holds_writeNode
  refine ⟨⟨⟨hholds _ h.header, fun p node' hp => ?_, fun p hp => ?_, fun p node' hp => ?_, fun p hp => ?_⟩, hholds,
    hheight, .inl rfl⟩, ⟨⟨hnew, hheader⟩, Function.update_self ..⟩, hcount, hback⟩
  · rcases hpages p node' hp with ⟨rfl, rfl⟩ | ⟨-, hold⟩
    · exact hpage
    · exact h.pageNo p node' hold
  · rw [hcount]
    unfold ixLeafHeaderPage at hheader
    rcases hback p hp with rfl | hold
    · omega
    · have := h.range p hold
      omega
  · rcases hpages p node' hp with ⟨rfl, rfl⟩ | ⟨hne, hold⟩
    · rw [Function.update_self]
      exact hnode.mono hholds hkeep
    · rw [Function.update_of_ne hne]
      exact (h.placed p node' hold).mono hholds hkeep
  · rcases hback p hp with rfl | hold
    · rw [Function.update_self]
      exact ⟨_, hnew, hn⟩
    · rw [hheight p hold]
      obtain ⟨q, hq, hlt⟩ := h.height_lt p hold
      exact ⟨q, hholds q hq, hlt⟩

/-! ### Splits -/

theorem splitLeaf {newNode : IxNodeHandle K} (hp : AtHeight height ih n node.pageNo) (hnode : Placed height ih n node)
    (hleaf : node.isLeaf = true) (hpage : newNode.pageNo = ih.fd2pageno) (hnew : newNode.isLeaf = node.isLeaf)
    (hparent : newNode.parent = node.parent) :
    Gives (fun ih' => Adds height ih n ih') (ih.createNode.2.splitLeaf node newNode) := by
  unfold IxIndexHandle.splitLeaf
  refine (Gives.of_ends ends_assertThat).bind fun _ _ => (Gives.of_ends insertPairs_ends).bind fun right hright => ?_
  obtain ⟨-, hright⟩ := hright
  have hpage' : right.pageNo = ih.fd2pageno := by rw [hright]; exact hpage
  have hn := h.lt_fd2pageno hp
  have hadd := h.add { right with prevLeaf := node.pageNo, nextLeaf := node.nextLeaf } n hn hpage' <| by
    rw [hright]
    exact
      { isLeaf := by dsimp only; rw [hnew]; exact hnode.isLeaf
        parent := by dsimp only; rw [hparent]; exact hnode.parent
        links := fun _ => ⟨hp.1.1, (hnode.links hleaf).2⟩
        slot := fun hfalse => absurd (hfalse.symm.trans (hnew.trans hleaf)) Bool.false_ne_true }
  have hleft := hadd.sound.writeNode { node with numKey := (node.numKey + 1) / 2 } (hadd.holds _ hp.1.1) <| by
    have hplaced := hnode.evolves hadd.toEvolves
    rw [(hadd.atHeight hp).2]
    exact ⟨hplaced.isLeaf, hplaced.parent, hplaced.links, hplaced.slot⟩
  have hboth := hadd.trans hleft
  have hnext : ∀ ih', Adds height ih n ih' → Gives (fun ih'' => Adds height ih n ih'')
      (ih'.updateNode node.pageNo fun node => { node with nextLeaf := right.pageNo }) := fun ih' hih' =>
    (hih'.sound.setNextLeaf (hpage' ▸ hih'.new.1.1)).mono fun _ hev => hih'.trans hev
  dsimp only
  split
  · exact ((hboth.sound.setPrevLeaf (hpage' ▸ hboth.new.1.1)).mono fun _ hev => hboth.trans hev).bind hnext
  · exact hnext _ (hboth.trans (hboth.sound.setHeader _ rfl rfl (.inl rfl)))

theorem splitInternal {newNode : IxNodeHandle K} (hp : AtHeight height ih n node.pageNo)
    (hnode : Placed height ih n node) (hleaf : node.isLeaf = false) (hpage : newNode.pageNo = ih.fd2pageno)
    (hnew : newNode.isLeaf = node.isLeaf) (hparent : newNode.parent = node.parent)
    (hslots : ∀ i, newNode.valueAt i = 0) :
    Gives (fun ih' => Adds height ih n ih') (ih.createNode.2.splitInternal node newNode) := by
  rw [splitInternal_bind]
  refine (Gives.of_ends ends_assertThat).bind fun _ _ => ?_
  have hn := h.lt_fd2pageno hp
  have hadd := h.add (upperHalf node newNode) n hn hpage <| by
    refine ⟨by rw [upperHalf, hnew]; exact hnode.isLeaf, by rw [upperHalf, hparent]; exact hnode.parent,
      fun htrue => absurd (hleaf.symm.trans (hnew.symm.trans htrue)) Bool.false_ne_true, fun _ i => ?_⟩
    unfold upperHalf
    dsimp only
    split
    · exact hnode.slot hleaf _
    · exact .inl (hslots i)
  have hleft := hadd.sound.writeNode { node with numKey := node.numKey / 2 } (hadd.holds _ hp.1.1) <| by
    have hplaced := hnode.evolves hadd.toEvolves
    rw [(hadd.atHeight hp).2]
    exact ⟨hplaced.isLeaf, hplaced.parent, hplaced.links, hplaced.slot⟩
  have hboth := hadd.trans hleft
  rw [hpage]
  exact (hboth.sound.maintainChildren hboth.new _ id).mono fun _ hev => hboth.trans hev

theorem split (hp : AtHeight height ih n p) : Gives (fun r => r.1 = ih.fd2pageno ∧ Adds height ih n r.2) (ih.split p) := by
  have hplaced : Placed height ih n (ih.nodeAt p) := hp.2 ▸ h.placed_nodeAt hp.1.1
  have hpage : AtHeight height ih n (ih.nodeAt p).pageNo := by
    rw [hp.1.1.pageNo]
    exact hp
  rw [split_eq hp.1.1 (h.ne_fd2pageno hp.1.1)]
  refine Ends.bind (Q := fun ih' => Adds height ih n ih') ?_ fun ih' hih' => ⟨rfl, hih'⟩
  split
  · next hleaf => exact h.splitLeaf hpage hplaced hleaf rfl rfl rfl
  · next hleaf => exact h.splitInternal hpage hplaced (Bool.not_eq_true _ ▸ hleaf) rfl rfl rfl fun _ => rfl

/-! ### Insertion -/

theorem growRoot (hp : AtHeight height ih n p) (hq : AtHeight height ih n q) (key : K) :
    Gives (fun ih' => ∃ height', Evolves height ih height' ih') (ih.growRoot p key q) := by
  have hadd := h.add (newRoot p key q (emptyNode ih.fd2pageno)) (n + 1) (h.add_one_lt_fd2pageno hp) rfl <| by
    refine ⟨iff_of_false Bool.false_ne_true (Nat.succ_ne_zero n), .inl rfl, fun htrue => absurd htrue Bool.false_ne_true,
      fun _ i => ?_⟩
    unfold newRoot
    dsimp only
    by_cases hone : i = 1
    · rw [hone, Function.update_self]
      exact .inr ⟨n, rfl, hq⟩
    · rw [Function.update_of_ne hone]
      by_cases hzero : i = 0
      · rw [hzero, Function.update_self]
        exact .inr ⟨n, rfl, hp⟩
      · rw [Function.update_of_ne hzero]
        exact .inl rfl
  have hroot : ih.createNode.2.updateNode ih.fd2pageno (newRoot p key q) =
      .ok (ih.createNode.2.writeNode (newRoot p key q (emptyNode ih.fd2pageno))) := by
    unfold IxIndexHandle.updateNode
    rw [holds_createNode.fetchNode, nodeAt_createNode, Function.update_self]
    rfl
  rw [growRoot_bind, hroot]
  refine (hadd.sound.setParent (hadd.atHeight hp) hadd.new).bind fun ih₁ h₁ => ?_
  refine (h₁.sound.setParent (h₁.atHeight (hadd.atHeight hq)) (h₁.atHeight hadd.new)).bind fun ih₂ h₂ => ?_
  have hlast := hadd.trans (h₁.trans h₂)
  have hroot := hlast.sound.setHeader (ih₂.setRootPage ih.fd2pageno) rfl rfl (.inr hlast.new.1)
  exact ⟨_, hlast.toEvolves.trans hroot.toEvolves⟩

/-- The way up ends at the latest where no page is higher. -/
theorem insertIntoParent (hp : AtHeight height ih n p) (hq : AtHeight height ih n q) {fuel : ℕ}
    (hfuel : ∀ r, ih.Holds r → height r < n + fuel) (key : K) :
    Gives (fun ih' => ∃ height', Evolves height ih height' ih') (insertIntoParent cmp fuel ih p key q) := by
  induction fuel generalizing height ih n p q key with
  | zero =>
    have hlt := hfuel p hp.1.1
    rw [hp.2] at hlt
    omega
  | succ fuel hrec =>
    unfold IxIndexHandle.insertIntoParent
    refine h.fetchNode.bind fun old hold => ?_
    obtain ⟨-, -, hold⟩ := hold
    split
    · exact h.growRoot hp hq key
    · next hroot =>
      have hparent : AtHeight height ih (n + 1) old.parent := by
        rw [← hp.2]
        exact hold.parent.resolve_left hroot
      refine h.fetchNode.bind fun parent hfetch => (Gives.of_ends insertPair_ends).bind fun parent' hinsert => ?_
      obtain ⟨hheld, hpage, hplaced⟩ := hfetch
      obtain ⟨rid, hrid, hparent'⟩ := hinsert
      have hpage' : parent'.pageNo = old.parent := by rw [hparent', ← hpage]
      have hslot : Slot height ih (height old.parent) rid := by
        rw [hparent.2]
        exact .inr ⟨n, rfl, hrid.symm ▸ hq⟩
      have hwrite := h.writeNode parent' (by rw [hpage']; exact hheld) <| by
        rw [hpage', hparent']
        exact ⟨hplaced.isLeaf, hplaced.parent, hplaced.links, fun hleaf => forall_insertAt _ _ (hplaced.slot hleaf) hslot⟩
      have hat : AtHeight height (ih.writeNode parent') (n + 1) parent'.pageNo := by
        rw [hpage']
        exact hwrite.atHeight hparent
      dsimp only
      split
      · refine (hwrite.sound.split hat).bind fun r hr => ?_
        obtain ⟨hnew, hadds⟩ := hr
        have hfuel' : ∀ r', r.2.Holds r' → Function.update height (ih.writeNode parent').fd2pageno (n + 1) r' < n + 1 + fuel := by
          intro r' hr'
          have hlt := hfuel old.parent hparent.1.1
          rw [hparent.2] at hlt
          rcases hadds.back r' hr' with rfl | hheld'
          · rw [Function.update_self]
            omega
          · rw [hadds.height_eq r' hheld']
            have := hfuel r' (hwrite.back r' hheld')
            omega
        refine (hrec hadds.sound (hadds.atHeight hat) (hnew ▸ hadds.new) hfuel' _).mono fun ih' hih' => ?_
        obtain ⟨height', hev⟩ := hih'
        exact ⟨height', hwrite.toEvolves.trans (hadds.toEvolves.trans hev)⟩
      · exact ⟨height, hwrite.toEvolves⟩

theorem splitFullLeaf (hp : AtHeight height ih n p) :
    Gives (fun ih' => ∃ height', Evolves height ih height' ih') (ih.splitFullLeaf cmp p) := by
  unfold IxIndexHandle.splitFullLeaf
  refine (h.split hp).bind fun r hr => ?_
  obtain ⟨hnew, hadds⟩ := hr
  refine hadds.sound.fetchNode.bind fun newLeaf _ => ?_
  have hfuel : ∀ q, r.2.Holds q → Function.update height ih.fd2pageno n q < n + r.2.fuel := by
    intro q hq
    have hlt := hadds.sound.height_add_one_lt hq
    unfold IxIndexHandle.fuel
    omega
  refine (hadds.sound.insertIntoParent (hadds.atHeight hp) (hnew ▸ hadds.new) hfuel _).bind fun ih' hih' => ?_
  obtain ⟨height', hev⟩ := hih'
  refine ⟨height', hadds.toEvolves.trans (hev.trans ?_)⟩
  split
  · have hlast := hev.sound.setHeader (ih'.setLastLeaf r.1) rfl rfl (.inl rfl)
    exact hlast.toEvolves
  · exact (Rewrites.refl hev.sound).toEvolves

/-- An insertion after the check for duplicates. -/
theorem insertChecked (cmp : K → K → Ordering) (hroot : ih.HoldsNode ih.fileHdr.rootPage) (key : K) (value : Rid) :
      Gives (fun r => ∃ height', Evolves height ih height' r.2) (do
      let leaf ← ih.findLeafPage cmp key
      let leaf ← leaf.insert cmp ih.fileHdr key value
      let ih := ih.writeNode leaf
      let ih ← if leaf.numKey = ih.fileHdr.maxSize then ih.splitFullLeaf cmp leaf.pageNo else pure ih
      return (leaf.pageNo, ih)) := by
  refine (h.findLeafPage cmp hroot key).bind fun leaf hleaf => ?_
  obtain ⟨hheld, hleaf, hplaced⟩ := hleaf
  have hinsert : Gives (fun leaf' => leaf'.pageNo = leaf.pageNo ∧ Placed height ih (height leaf.pageNo) leaf')
      (leaf.insert cmp ih.fileHdr key value) := by
    unfold IxNodeHandle.insert
    dsimp only
    split
    · exact ⟨rfl, hplaced⟩
    · refine (Gives.of_ends insertPairs_ends).mono fun leaf' h' => ?_
      rw [h'.2]
      exact ⟨rfl, hplaced.isLeaf, hplaced.parent, hplaced.links,
        fun hfalse => absurd hleaf (ne_of_eq_of_ne hfalse Bool.false_ne_true)⟩
  refine hinsert.bind fun leaf' hleaf' => ?_
  obtain ⟨hpage, hplaced'⟩ := hleaf'
  have hwrite := h.writeNode leaf' (hpage ▸ hheld.1) (hpage ▸ hplaced')
  dsimp only
  split
  · refine (hwrite.sound.splitFullLeaf ⟨hwrite.holdsNode (hpage ▸ hheld), rfl⟩).bind fun ih' hih' => ?_
    obtain ⟨height', hev⟩ := hih'
    exact ⟨height', hwrite.toEvolves.trans hev⟩
  · exact ⟨height, hwrite.toEvolves⟩

theorem insertEntry (cmp : K → K → Ordering) (hroot : ih.HoldsNode ih.fileHdr.rootPage) (key : K) (value : Rid) :
    Ends (· ≠ .unfinished) (fun r => ∃ height', Evolves height ih height' r.2) (ih.insertEntry cmp key value) := by
  unfold IxIndexHandle.insertEntry
  have hmain := (h.insertChecked cmp hroot key value).weaken fun _ herror => herror.1
  split
  · refine Ends.bind ((h.getValue hroot key).weaken fun _ herror => herror.1) fun found _ => ?_
    split
    · exact nofun
    · exact hmain
  · exact hmain

end

end Sound
end IxIndexHandle
end Rmdb
