import Rmdb.Index.Correctness
import Rmdb.Index.Delete
import Rmdb.Index.NodePages
import Rmdb.Lib.Runs

/-! The root page over runs of insertions and deletions. The deletion that takes the only entry of a root leaf leaves
the index without a root page, and no other call does. -/
namespace Rmdb

open SlotArray Program

namespace IxIndexHandle

variable {K : Type} {cmp : K → K → Ordering} {ih ih' : IxIndexHandle K} {height : ℤ → ℕ} {n : ℕ} {p q r : ℤ}
  {node : IxNodeHandle K} {key : K}

theorem sound_freshIndex [Inhabited K] (btreeOrder colTotLen : ℕ) (unique : Bool) :
    Sound (fun _ => 0) (freshIndex btreeOrder colTotLen unique : IxIndexHandle K) := by
  obtain ⟨ih, hih⟩ : ∃ ih : IxIndexHandle K, ih = freshIndex btreeOrder colTotLen unique := ⟨_, rfl⟩
  have hheld : ih.Holds ixLeafHeaderPage ∧ ih.Holds ixInitRootPage := by
    rw [hih]
    exact ⟨⟨_, rfl, rfl⟩, _, rfl, rfl⟩
  have hpages : ∀ p node, ih.pages p = some node → node.pageNo = p ∧ (p = ixLeafHeaderPage ∨ p = ixInitRootPage) ∧
      node.isLeaf = true ∧ node.parent = ixNoPage ∧ ih.Holds node.prevLeaf ∧ ih.Holds node.nextLeaf := by
    intro p node hnode
    have hdef : ih.pages p = (freshIndex btreeOrder colTotLen unique : IxIndexHandle K).pages p := by rw [hih]
    rw [hdef] at hnode
    change (if p = ixLeafHeaderPage then _ else if p = ixInitRootPage then _ else none) = some node at hnode
    split at hnode
    · next hp =>
      cases hnode
      exact ⟨rfl, .inl hp, rfl, rfl, hheld.2, hheld.2⟩
    · split at hnode
      · next hp =>
        cases hnode
        exact ⟨rfl, .inr hp, rfl, rfl, hheld.1, hheld.1⟩
      · cases hnode
  have hcount : ih.fd2pageno = 3 := by rw [hih]; rfl
  rw [← hih]
  refine ⟨hheld.1, fun p node hnode => (hpages p node hnode).1, fun p hp => ?_, fun p node hnode => ?_,
    fun p _ => ⟨_, hheld.1, by decide⟩⟩
  · obtain ⟨node, hnode, -⟩ := hp
    have hp := (hpages p node hnode).2.1
    unfold ixLeafHeaderPage ixInitRootPage at hp
    omega
  · obtain ⟨-, -, hleaf, hparent, hlinks⟩ := hpages p node hnode
    exact ⟨iff_of_true hleaf rfl, .inl hparent, fun _ => hlinks,
      fun hfalse => absurd (hleaf.symm.trans hfalse).symm Bool.false_ne_true⟩

theorem holdsNode_freshIndex [Inhabited K] (btreeOrder colTotLen : ℕ) (unique : Bool) :
    (freshIndex btreeOrder colTotLen unique : IxIndexHandle K).HoldsNode ixInitRootPage := ⟨⟨_, rfl, rfl⟩, by decide⟩

/-! ### Deletion -/

theorem erasePair_ends {hdr : IxFileHdr} {pos : ℕ} :
    Ends IxError.Stops (fun node' => node' = { node with
        keys := eraseAt node.keys node.numKey pos
        rids := eraseAt node.rids node.numKey pos
        numKey := node.numKey - 1 }) (node.erasePair hdr pos) := by
  unfold IxNodeHandle.erasePair
  exact ends_assertThat.bind fun _ _ => ends_assertThat.bind fun _ _ => rfl

theorem findChild_gives {childPageNo : ℤ} : Gives (fun _ => True) (node.findChild childPageNo) := by
  unfold IxNodeHandle.findChild
  split
  · trivial
  · exact ⟨by simp, by simp⟩

/-- A pair of a node of the same height is inserted. -/
theorem Placed.insertOne (h : Placed height ih n node) {hdr : IxFileHdr} {pos : ℕ} {key : K} {rid : Rid}
    (hrid : node.isLeaf = false → Slot height ih n rid) :
    Gives (fun node' => node'.pageNo = node.pageNo ∧ node'.isLeaf = node.isLeaf ∧ Placed height ih n node')
      (node.insertPairs hdr pos (fun _ => key) (fun _ => rid) 1) := by
  refine (Gives.of_ends insertPairs_ends).mono fun node' hnode' => ?_
  rw [hnode'.2]
  exact ⟨rfl, rfl, h.isLeaf, h.parent, h.links, fun hleaf =>
    forall_insertMany _ _ _ (h.slot hleaf) fun _ _ => hrid hleaf⟩

namespace Sound

variable (h : Sound height ih)
include h

/-- A pair is erased from the node of a page. -/
theorem writeErased {hdr : IxFileHdr} {pos : ℕ} (hheld : ih.Holds node.pageNo)
    (hnode : Placed height ih (height node.pageNo) node) :
    Gives (fun node' => Rewrites height ih (ih.writeNode node')) (node.erasePair hdr pos) := by
  refine (Gives.of_ends erasePair_ends).mono fun node' hnode' => ?_
  have hpage : node'.pageNo = node.pageNo := by rw [hnode']
  refine h.writeNode _ (hpage ▸ hheld) ?_
  rw [hpage, hnode']
  exact ⟨hnode.isLeaf, hnode.parent, hnode.links, fun hleaf => forall_eraseAt _ _ (hnode.slot hleaf)⟩

theorem setKeys {f : IxNodeHandle K → ℕ → K} :
    Gives (fun ih' => Rewrites height ih ih') (ih.updateNode p fun node => { node with keys := f node }) :=
  h.updateNode (fun _ => rfl) fun _ hold => ⟨hold.isLeaf, hold.parent, hold.links, hold.slot⟩

theorem redistribute (hp : AtHeight height ih n p) (hq : AtHeight height ih n q) (index : ℕ) :
    Gives (fun ih' => Rewrites height ih ih') (ih.redistribute q p r index) := by
  unfold IxIndexHandle.redistribute
  refine h.fetchNode.bind fun node hnode => h.fetchNode.bind fun neighbor hneighbor => ?_
  obtain ⟨-, hpage, hnode⟩ := hnode
  obtain ⟨-, -, hneighbor⟩ := hneighbor
  rw [hp.2] at hnode
  rw [hq.2] at hneighbor
  have hslot : ∀ i, node.isLeaf = false → Slot height ih n (neighbor.rids i) := by
    intro i hleaf
    refine hneighbor.slot ?_ i
    rw [Bool.eq_false_iff]
    exact fun htrue => hnode.ne_zero hleaf (hneighbor.isLeaf.mp htrue)
  refine (Gives.of_ends ends_assertThat).bind fun _ _ => ?_
  refine (hnode.insertOne (hslot _)).bind fun node' hnode' => ?_
  obtain ⟨hpage', -, hnode'⟩ := hnode'
  have hwrite := h.writeNode node' (by rw [hpage', hpage]; exact hp.1.1) (by rw [hpage', hpage, hp.2]; exact hnode')
  refine hwrite.sound.fetchNode.bind fun neighbor' hfetch => ?_
  obtain ⟨hheld, hpageq, hneighbor'⟩ := hfetch
  refine (hwrite.sound.writeErased (hpageq ▸ hheld) (hpageq ▸ hneighbor')).bind fun erased herased => ?_
  have hev := hwrite.trans herased
  refine (hev.sound.setKeys).bind fun ih' hih' => ?_
  have hev' := hev.trans hih'
  exact (hev'.sound.maintainChild (hev'.atHeight hp) _).mono fun _ hlast => hev'.trans hlast

omit h in
theorem appendChildren {left right : IxNodeHandle K} (hleft : Placed height ih n left) (hright : Placed height ih n right)
    (hleaf : right.isLeaf = false) (parentKey : K) :
    Gives (fun left' => left'.pageNo = left.pageNo ∧ left'.isLeaf = left.isLeaf ∧ Placed height ih n left')
      (ih.appendChildren left right parentKey) := by
  unfold IxIndexHandle.appendChildren
  have hslot : ∀ i, Slot height ih n ⟨right.valueAt i, 0⟩ := fun i => hright.slot hleaf i
  refine (hleft.insertOne fun _ => hslot 0).bind fun left₁ h₁ => ?_
  refine Ends.foldlM (I := fun left' => left'.pageNo = left.pageNo ∧ left'.isLeaf = left.isLeaf ∧ Placed height ih n left')
    (fun left' h' i _ => ?_) h₁
  obtain ⟨hpage, hkind, hplaced⟩ := h'
  refine (hplaced.insertOne fun _ => hslot (i + 1)).mono fun left'' h'' => ?_
  exact ⟨h''.1.trans hpage, h''.2.1.trans hkind, h''.2.2⟩

theorem mergeRight (hp : AtHeight height ih n p) (hq : AtHeight height ih n q) (index : ℕ) :
    Gives (fun ih' => Rewrites height ih ih') (ih.mergeRight p q r index) := by
  unfold IxIndexHandle.mergeRight
  refine h.fetchNode.bind fun right hright => h.fetchNode.bind fun left hleft => h.fetchNode.bind fun parent _ => ?_
  obtain ⟨-, -, hright⟩ := hright
  obtain ⟨-, hpage, hleft⟩ := hleft
  rw [hq.2] at hright
  rw [hp.2] at hleft
  have herase : ∀ ih', Rewrites height ih ih' → Gives (fun ih'' => Rewrites height ih ih'') (do
      let parentHandle ← (← ih'.fetchNode r).erasePair ih'.fileHdr index
      return ih'.writeNode parentHandle) := by
    intro ih' hev
    refine hev.sound.fetchNode.bind fun parent' hfetch => ?_
    obtain ⟨hheld, hpager, hparent⟩ := hfetch
    exact (hev.sound.writeErased (hpager ▸ hheld) (hpager ▸ hparent)).bind fun _ hwrite => hev.trans hwrite
  split
  · next hleaf =>
    have hwrite := h.writeNode { left with nextLeaf := right.nextLeaf } (hpage ▸ hp.1.1) <| by
      rw [hpage, hp.2]
      exact ⟨hleft.isLeaf, hleft.parent, fun hleft' => ⟨(hleft.links hleft').1, (hright.links hleaf).2⟩, hleft.slot⟩
    dsimp only
    refine herase _ ?_
    split
    · exact hwrite.trans (hwrite.sound.setHeader _ rfl rfl (.inl rfl))
    · exact hwrite
  · next hleaf =>
    refine (Gives.of_ends ends_assertThat).bind fun _ _ => ?_
    refine (appendChildren hleft hright (Bool.not_eq_true _ ▸ hleaf) _).bind fun left' h' => ?_
    obtain ⟨hpage', -, hplaced⟩ := h'
    have hwrite := h.writeNode left' (by rw [hpage', hpage]; exact hp.1.1)
      (by rw [hpage', hpage, hp.2]; exact hplaced)
    refine Ends.bind ?_ herase
    exact (hwrite.sound.maintainChildren (hwrite.atHeight hp) _ _).mono fun _ hlast => hwrite.trans hlast

/-- The old root is not an empty leaf. -/
theorem adjustRoot (hempty : ∀ node, ih.pages p = some node → node.isLeaf = true → node.numKey ≠ 0) :
    Gives (fun r => Rewrites height ih r.2) (ih.adjustRoot p) := by
  unfold IxIndexHandle.adjustRoot IxIndexHandle.fetchNode
  cases hnode : ih.pages p with
  | none => exact ⟨by simp, by simp⟩
  | some root =>
    have hplaced := h.placed p root hnode
    change Gives _ (if root.isLeaf = false ∧ root.numKey = 1 then _ else _)
    split
    · next hroot =>
      rcases hplaced.slot hroot.1 0 with hzero | ⟨m, -, hslot⟩
      · have hvalue : root.valueAt 0 = 0 := hzero
        rw [hvalue, IxIndexHandle.updateNode, h.fetchNode_zero]
        exact ⟨by simp, by simp⟩
      · refine (h.updateNode (f := fun child => { child with parent := ixNoPage }) (fun _ => rfl)
          fun child hold => ⟨hold.isLeaf, .inl rfl, hold.links, hold.slot⟩).bind fun ih' hev => ?_
        exact hev.trans (hev.sound.setHeader _ rfl rfl (.inr (hev.holdsNode hslot.1)))
    · split
      · next hleaf => exact absurd hleaf.2 (hempty root hnode hleaf.1)
      · exact Rewrites.refl h

theorem coalesceOrRedistribute (hp : AtHeight height ih n p)
    (hempty : ∀ node, ih.pages p = some node → node.isRootPage → node.isLeaf = true → node.numKey ≠ 0) {fuel : ℕ}
    (hfuel : ∀ r, ih.Holds r → height r < n + fuel) :
    Gives (fun r => Rewrites height ih r.2) (coalesceOrRedistribute fuel ih p) := by
  induction fuel generalizing ih n p with
  | zero =>
    have hlt := hfuel p hp.1.1
    rw [hp.2] at hlt
    omega
  | succ fuel hrec =>
    unfold IxIndexHandle.coalesceOrRedistribute IxIndexHandle.fetchNode
    cases hnode : ih.pages p with
    | none =>
      exact ⟨by simp, by simp⟩
    | some node =>
      have hplaced := h.placed p node hnode
      rw [hp.2] at hplaced
      change Gives _ (if node.isRootPage then _ else _)
      split
      · next hroot =>
        refine h.adjustRoot fun node' hnode' => ?_
        exact hempty node' hnode' (Option.some.inj (hnode.symm.trans hnode') ▸ hroot)
      · next hroot =>
        split
        · exact Rewrites.refl h
        · have hparent : AtHeight height ih (n + 1) node.parent := hplaced.parent.resolve_left hroot
          refine Ends.bind h.fetchNode fun parent hfetch => ?_
          obtain ⟨-, hpager, hplacedr⟩ := hfetch
          rw [hparent.2] at hplacedr
          have hinternal : parent.isLeaf = false := by
            rw [Bool.eq_false_iff]
            exact fun htrue => absurd (hplacedr.isLeaf.mp htrue) (Nat.succ_ne_zero n)
          refine Ends.bind findChild_gives fun nodeIdx _ => ?_
          · refine (Gives.of_ends ends_assertThat).bind fun _ _ => ?_
            obtain ⟨neighborIdx, hidx⟩ : ∃ idx, idx = if 0 < nodeIdx then nodeIdx - 1 else nodeIdx + 1 := ⟨_, rfl⟩
            rw [← hidx]
            rcases hplacedr.slot hinternal neighborIdx with hzero | ⟨m, hm, hslot⟩
            · have hvalue : parent.valueAt neighborIdx = 0 := hzero
              have hnone := h.fetchNode_zero
              unfold IxIndexHandle.fetchNode at hnone
              rw [hvalue, hnone]
              exact ⟨by simp, by simp⟩
            · obtain rfl : n = m := Nat.succ.inj hm
              refine Ends.bind h.fetchNode fun neighbor hneighbor => ?_
              rw [hneighbor.2.1, hpager]
              split
              · exact (h.redistribute hp hslot nodeIdx).bind fun _ hev => hev
              · split
                · exact ⟨by simp, by simp⟩
                · refine (h.mergeRight hslot hp nodeIdx).bind fun ih' hev => ?_
                  refine Ends.bind hev.sound.fetchNode fun parent' hfetch' => ?_
                  obtain ⟨-, hpage', hplaced'⟩ := hfetch'
                  split
                  · rw [hpage']
                    have hfuel' : ∀ r, ih'.Holds r → height r < n + 1 + fuel := by
                      intro r hr
                      have := hfuel r (hev.back r hr)
                      omega
                    refine (hrec hev.sound (hev.atHeight hparent) (fun node' hnode' _ hleaf' => ?_) hfuel').mono
                      fun _ hlast => hev.trans hlast
                    have hzero := (hev.sound.placed _ node' hnode').isLeaf.mp hleaf'
                    rw [(hev.atHeight hparent).2] at hzero
                    exact absurd hzero (Nat.succ_ne_zero n)
                  · exact hev

theorem eraseLeaf (hnode : Placed height ih n node) :
    Gives (fun ih' => Rewrites height ih ih') (ih.eraseLeaf node) := by
  unfold IxIndexHandle.eraseLeaf
  refine (Gives.of_ends ends_assertThat).bind fun _ hleaf => ?_
  obtain ⟨hprev, hnext⟩ := hnode.links hleaf
  refine (h.setNextLeaf hnext).bind fun ih' hev => ?_
  exact (hev.sound.setPrevLeaf (hev.holds _ hprev)).mono fun _ hlast => hev.trans hlast

theorem afterRemove (transaction : Bool) (hp : AtHeight height ih n p)
    (hempty : ∀ node, ih.pages p = some node → node.isRootPage → node.isLeaf = true → node.numKey ≠ 0) :
    Gives (fun ih' => Rewrites height ih ih') (ih.afterRemove transaction p) := by
  unfold IxIndexHandle.afterRemove
  have hfuel : ∀ q, ih.Holds q → height q < n + ih.fuel := by
    intro q hq
    have hlt := h.height_add_one_lt hq
    unfold IxIndexHandle.fuel
    omega
  refine (h.coalesceOrRedistribute hp hempty hfuel).bind fun r hev => ?_
  dsimp only
  split
  · refine hev.sound.fetchNode.bind fun leaf hleaf => ?_
    refine (hev.sound.eraseLeaf hleaf.2.2).bind fun ih' hev' => ?_
    exact (hev.trans hev').trans (hev'.sound.setHeader _ rfl rfl (.inl rfl))
  · exact hev

end Sound

/-! ### The deletion that empties the root -/

/-- The call takes the only entry of a leaf that has no parent. -/
def EmptiesRoot (cmp : K → K → Ordering) (ih : IxIndexHandle K) (key : K) : Prop :=
  ∃ leaf, ih.findLeafPage cmp key = .ok leaf ∧ leaf.isRootPage ∧ leaf.numKey = 1 ∧ cmp (leaf.keys 0) key = .eq

theorem Sound.deleteEntry (h : Sound height ih) (hroot : ih.HoldsNode ih.fileHdr.rootPage) (transaction : Bool) (key : K)
    (hnot : ¬EmptiesRoot cmp ih key) : Gives (fun r => Rewrites height ih r.2) (ih.deleteEntry cmp transaction key) := by
  unfold IxIndexHandle.deleteEntry
  have hfind := h.findLeafPage cmp hroot key
  cases hleaf : ih.findLeafPage cmp key with
  | error e =>
    rw [hleaf] at hfind
    exact hfind
  | ok leaf =>
    rw [hleaf] at hfind
    obtain ⟨hheld, hkind, hplaced⟩ := hfind
    change Gives _ (leaf.remove cmp ih.fileHdr key >>= fun removed => _)
    have hremove : Gives (fun removed => removed.pageNo = leaf.pageNo ∧ (removed.numKey < leaf.numKey → removed.isRootPage →
        removed.numKey ≠ 0) ∧ Rewrites height ih (ih.writeNode removed)) (leaf.remove cmp ih.fileHdr key) := by
      unfold IxNodeHandle.remove
      dsimp only
      split
      · next hfound =>
        refine (Gives.of_ends erasePair_ends).mono fun removed hremoved => ?_
        have hpage : removed.pageNo = leaf.pageNo := by rw [hremoved]
        refine ⟨hpage, fun hlt hrootPage hzero => hnot ⟨leaf, hleaf, ?_, ?_, ?_⟩, h.writeNode _ (hpage ▸ hheld.1) ?_⟩
        · rw [hremoved] at hrootPage
          exact hrootPage
        · rw [hremoved] at hlt hzero
          dsimp only at hlt hzero
          omega
        · have hone : leaf.lowerBound cmp key = 0 := by
            rw [hremoved] at hlt hzero
            dsimp only at hlt hzero
            omega
          rw [hone] at hfound
          exact hfound.2
        · rw [hpage, hremoved]
          exact ⟨hplaced.isLeaf, hplaced.parent, hplaced.links, fun hinternal => forall_eraseAt _ _ (hplaced.slot hinternal)⟩
      · exact ⟨rfl, fun hlt => absurd hlt (Nat.lt_irrefl _), h.writeNode _ hheld.1 hplaced⟩
    refine hremove.bind fun removed hremoved => ?_
    obtain ⟨hpage, hempty, hev⟩ := hremoved
    split
    · next hlt =>
      refine (hev.sound.afterRemove transaction ⟨hev.holdsNode hheld, rfl⟩ fun node hnode hrootPage _ => ?_).bind
        fun ih' hlast => hev.trans hlast
      have hself : (ih.writeNode removed).pages leaf.pageNo = some removed := by
        rw [← hpage]
        exact Function.update_self ..
      obtain rfl := Option.some.inj (hself.symm.trans hnode)
      exact hempty hlt hrootPage
    · exact hev

theorem EmptiesRoot.deleteEntry [Inhabited K] (hempties : EmptiesRoot cmp ih key) (h : Sound height ih)
    (hroot : ih.HoldsNode ih.fileHdr.rootPage) (transaction : Bool) :
    ∃ ih', ih.deleteEntry cmp transaction key = .ok (true, ih') ∧ ih'.fileHdr.rootPage = ixNoPage := by
  obtain ⟨leaf, hfind, hparent, hone, heq⟩ := hempties
  have hleaf := h.findLeafPage cmp hroot key
  rw [hfind] at hleaf
  obtain ⟨hheld, hkind, hplaced⟩ := hleaf
  have hbound : leaf.lowerBound cmp key = 0 := by
    unfold IxNodeHandle.lowerBound
    rw [hone]
    simp [SlotArray.lowerBound, Bisect.search, heq]
  obtain ⟨removed, hremoved⟩ : ∃ removed : IxNodeHandle K, removed = { leaf with
      keys := eraseAt leaf.keys leaf.numKey 0, rids := eraseAt leaf.rids leaf.numKey 0, numKey := leaf.numKey - 1 } := ⟨_, rfl⟩
  have hremove : leaf.remove cmp ih.fileHdr key = .ok removed := by
    unfold IxNodeHandle.remove
    dsimp only
    rw [hbound, if_pos ⟨by omega, heq⟩, hremoved]
    exact IxNodeHandle.erasePair_eq (by omega) (by rw [hone]; exact Nat.succ_pos _)
  have hpage : removed.pageNo = leaf.pageNo := by rw [hremoved]
  have hzero : removed.numKey = 0 := by
    rw [hremoved]
    dsimp only
    omega
  obtain ⟨ih₁, hih₁⟩ : ∃ ih₁, ih₁ = ih.writeNode removed := ⟨_, rfl⟩
  have hfetch : ih₁.fetchNode leaf.pageNo = .ok removed := by
    have hself : ih₁.pages leaf.pageNo = some removed := by
      rw [hih₁, ← hpage]
      exact Function.update_self ..
    unfold IxIndexHandle.fetchNode
    rw [hself]
  have hadjust : ih₁.adjustRoot leaf.pageNo = .ok (true, ih₁.setRootPage ixNoPage) := by
    unfold IxIndexHandle.adjustRoot
    rw [hfetch]
    change (if removed.isLeaf = false ∧ removed.numKey = 1 then _ else
      if removed.isLeaf = true ∧ removed.numKey = 0 then _ else _) = _
    rw [if_neg (by omega), if_pos ⟨by rw [hremoved]; exact hkind, hzero⟩]
    rfl
  have hcoalesce : coalesceOrRedistribute ih₁.fuel ih₁ leaf.pageNo = .ok (true, ih₁.setRootPage ixNoPage) := by
    unfold IxIndexHandle.fuel IxIndexHandle.coalesceOrRedistribute
    rw [hfetch]
    change (if removed.isRootPage then _ else _) = _
    rw [if_pos (by rw [hremoved]; exact hparent), hadjust]
  have hafter : ∃ ih', ih₁.afterRemove transaction leaf.pageNo = .ok ih' ∧ ih'.fileHdr.rootPage = ixNoPage := by
    unfold IxIndexHandle.afterRemove
    rw [hcoalesce]
    cases transaction with
    | true => exact ⟨_, rfl, rfl⟩
    | false =>
      obtain ⟨hprev, hnext⟩ := hplaced.links hkind
      have hholds : ∀ q, ih.Holds q → (ih₁.setRootPage ixNoPage).Holds q := by
        rw [hih₁]
        exact fun q hq => hq.writeNode
      obtain ⟨ih₂, hupdate₂, hext₂, hhdr₂, -⟩ := updateNode_eq (hholds _ hprev)
        (f := fun prev => { prev with nextLeaf := leaf.nextLeaf }) fun _ => rfl
      obtain ⟨ih₃, hupdate₃, -, hhdr₃, -⟩ := updateNode_eq (hext₂.holds _ (hholds _ hnext))
        (f := fun next => { next with prevLeaf := leaf.prevLeaf }) fun _ => rfl
      refine ⟨ih₃.releaseNodeHandle, ?_, ?_⟩
      · have herase : (ih₁.setRootPage ixNoPage).eraseLeaf removed = .ok ih₃ := by
          have hkind' : removed.isLeaf = true := by rw [hremoved]; exact hkind
          have hprev' : removed.prevLeaf = leaf.prevLeaf := by rw [hremoved]
          have hnext' : removed.nextLeaf = leaf.nextLeaf := by rw [hremoved]
          unfold IxIndexHandle.eraseLeaf
          rw [assertThat_of hkind', hprev', hnext']
          exact bind_eq_ok.mpr ⟨_, rfl, bind_eq_ok.mpr ⟨ih₂, hupdate₂, hupdate₃⟩⟩
        change ((ih₁.setRootPage ixNoPage).fetchNode leaf.pageNo >>= fun leaf =>
          (ih₁.setRootPage ixNoPage).eraseLeaf leaf >>= fun ih => pure ih.releaseNodeHandle) = _
        exact bind_eq_ok.mpr ⟨removed, hfetch, bind_eq_ok.mpr ⟨ih₃, herase, rfl⟩⟩
      · change ih₃.fileHdr.rootPage = ixNoPage
        rw [hhdr₃, hhdr₂]
        rfl
  obtain ⟨ih', hrun, hlast⟩ := hafter
  refine ⟨ih', ?_, hlast⟩
  unfold IxIndexHandle.deleteEntry
  refine bind_eq_ok.mpr ⟨leaf, hfind, bind_eq_ok.mpr ⟨removed, hremove, ?_⟩⟩
  rw [← hih₁, if_pos (by omega)]
  exact bind_eq_ok.mpr ⟨ih', hrun, rfl⟩

/-! No walk runs out of steps while there is a root. -/

theorem insertEntry_ne_unfinished [Inhabited K] (h : Sound height ih) (hroot : ih.HoldsNode ih.fileHdr.rootPage) (key : K)
    (value : Rid) : ih.insertEntry cmp key value ≠ .error .unfinished := by
  intro herror
  have hends := h.insertEntry cmp hroot key value
  rw [herror] at hends
  exact hends rfl

theorem deleteEntry_ne_unfinished [Inhabited K] (h : Sound height ih) (hroot : ih.HoldsNode ih.fileHdr.rootPage)
    (transaction : Bool) (key : K) : ih.deleteEntry cmp transaction key ≠ .error .unfinished := by
  intro herror
  by_cases hempties : EmptiesRoot cmp ih key
  · obtain ⟨ih', hrun, -⟩ := hempties.deleteEntry h hroot transaction
    exact absurd (herror.symm.trans hrun) nofun
  · have hends := h.deleteEntry hroot transaction key hempties
    rw [herror] at hends
    exact hends.1 rfl

/-! ### Runs -/

/-- A call that throws for a duplicate key leaves the index as it was; any other exception ends the run. -/
def indexAfter {α : Type} (ih : IxIndexHandle K) : Except IxError (α × IxIndexHandle K) → Option (IxIndexHandle K)
  | .ok (_, ih') => some ih'
  | .error .uniqueIndexViolation => some ih
  | .error _ => none

def call [Inhabited K] (cmp : K → K → Ordering) : IxOp K → IxIndexHandle K → Option (IxIndexHandle K)
  | .insert key value, ih => ih.indexAfter (ih.insertEntry cmp key value)
  | .delete transaction key, ih => ih.indexAfter (ih.deleteEntry cmp transaction key)

theorem Gives.indexAfter {α : Type} {Q : IxIndexHandle K → Prop} {x : Except IxError (α × IxIndexHandle K)}
    {allowed : IxError → Prop} (hx : Ends allowed (fun r => Q r.2) x) (hsame : Q ih) (h : ih.indexAfter x = some ih') : Q ih' := by
  unfold IxIndexHandle.indexAfter at h
  split at h
  · exact Option.some.inj h ▸ hx
  · exact Option.some.inj h ▸ hsame
  · cases h

/-- The call is not a deletion that empties the root. -/
def KeepsRoot (cmp : K → K → Ordering) : IxOp K → IxIndexHandle K → Prop
  | .insert _ _, _ => True
  | .delete _ key, ih => ¬EmptiesRoot cmp ih key

/-- Insertions and deletions can go on from here. -/
def Usable (ih : IxIndexHandle K) : Prop := (∃ height, Sound height ih) ∧ ih.HoldsNode ih.fileHdr.rootPage

theorem call_keepsRoot [Inhabited K] {op : IxOp K} (h : Sound height ih) (hroot : ih.HoldsNode ih.fileHdr.rootPage)
    (hkeeps : KeepsRoot cmp op ih) (hcall : call cmp op ih = some ih') : ∃ height', Evolves height ih height' ih' := by
  cases op with
  | insert key value =>
    exact Gives.indexAfter (Q := fun ih' => ∃ height', Evolves height ih height' ih') (h.insertEntry cmp hroot key value)
      ⟨height, (Rewrites.refl h).toEvolves⟩ hcall
  | delete transaction key =>
    have hrewrites := Gives.indexAfter (h.deleteEntry hroot transaction key hkeeps) (.refl h) hcall
    exact ⟨height, hrewrites.toEvolves⟩

theorem call_not_keepsRoot [Inhabited K] {op : IxOp K} (h : Sound height ih) (hroot : ih.HoldsNode ih.fileHdr.rootPage)
    (hkeeps : ¬KeepsRoot cmp op ih) : ∃ ih', call cmp op ih = some ih' ∧ ¬ih'.HoldsNode ih'.fileHdr.rootPage := by
  cases op with
  | insert key value => exact absurd trivial hkeeps
  | delete transaction key =>
    obtain ⟨ih', hrun, hlast⟩ := (not_not.mp hkeeps).deleteEntry h hroot transaction
    refine ⟨ih', ?_, ?_⟩
    · change ih.indexAfter (ih.deleteEntry cmp transaction key) = some ih'
      rw [hrun]
      rfl
    · rw [hlast]
      exact fun hheld => absurd hheld.2 (by decide)

/-- Along a run of insertions and deletions on a fresh index, the root page number names a node of the tree after every
call just when no deletion takes the only entry of a leaf without a parent. -/
theorem rootPage_holds_iff [Inhabited K] (cmp : K → K → Ordering) (btreeOrder colTotLen : ℕ) (unique : Bool)
    (ops : List (IxOp K)) :
    Runs.Along (call cmp) (fun _ _ ih => ih.HoldsNode ih.fileHdr.rootPage) ops (freshIndex btreeOrder colTotLen unique) ↔
      Runs.AllMeet (call cmp) (KeepsRoot cmp) ops (freshIndex btreeOrder colTotLen unique) := by
  have hgood : ∀ (ih : IxIndexHandle K) (op : IxOp K) ih', Usable ih → KeepsRoot cmp op ih → call cmp op ih = some ih' →
      ih'.HoldsNode ih'.fileHdr.rootPage ∧ Usable ih' := by
    intro ih op ih' hinv hkeeps hcall
    obtain ⟨⟨height, hsound⟩, hroot⟩ := hinv
    obtain ⟨height', hev⟩ := call_keepsRoot hsound hroot hkeeps hcall
    exact ⟨hev.usable hroot, ⟨height', hev.sound⟩, hev.usable hroot⟩
  have hbad : ∀ (ih : IxIndexHandle K) (op : IxOp K), Usable ih → ¬KeepsRoot cmp op ih →
      ∃ ih', call cmp op ih = some ih' ∧ ¬ih'.HoldsNode ih'.fileHdr.rootPage := by
    intro ih op hinv hkeeps
    obtain ⟨⟨height, hsound⟩, hroot⟩ := hinv
    exact call_not_keepsRoot hsound hroot hkeeps
  exact Runs.along_iff hgood hbad
    ⟨⟨_, sound_freshIndex btreeOrder colTotLen unique⟩, holdsNode_freshIndex btreeOrder colTotLen unique⟩

/-- The only key is inserted and deleted; then there is no page to look it up in or to insert it into. -/
theorem rootPage_charIndex : ∃ index ih : IxIndexHandle (IxKey charCols), createIndex 496 true = .ok index ∧
    Runs.run (call IxKey.cmp) [.insert (charKey 1) ⟨1, 1⟩, .delete true (charKey 1)] index = some ih ∧
      ih.fileHdr.rootPage = ixNoPage ∧ ¬ih.HoldsNode ih.fileHdr.rootPage ∧
      ih.findLeafPage IxKey.cmp (charKey 1) = .error .noPage ∧
      ih.insertEntry IxKey.cmp (charKey 1) ⟨1, 1⟩ = .error .noPage :=
  ⟨_, _, rfl, rfl, rfl, fun h => absurd h.2 (by decide), rfl, rfl⟩

end IxIndexHandle
end Rmdb
