import Rmdb.Index.BPlusTree
import Rmdb.Index.RootPage

/-! What the underflow handling does to a parent and two neighboring children, against what it has to keep. -/
namespace Rmdb

/-- The live part of a node and its arrays, without the links. -/
def IxNodeHandle.slots {K : Type} (node : IxNodeHandle K) : ℕ × (ℕ → K) × (ℕ → Rid) :=
  (node.numKey, node.keys, node.rids)

namespace IxIndexHandle

open SlotArray Program

variable {K : Type} [Inhabited K]

/-! ### Subtrees -/

/-- Every page carries its own number. -/
def Numbered (ih : IxIndexHandle K) : Prop := ∀ p node, ih.pages p = some node → node.pageNo = p

/-- The separators of a node bound the entries on both of their sides. -/
def Bounds (cmp : K → K → Ordering) (ih : IxIndexHandle K) (n : ℕ) (p : ℤ) : Prop :=
  ∀ i < (ih.nodeAt p).numKey,
    (∀ e ∈ ih.entriesIn (ih.pagesBelow n ((ih.nodeAt p).valueAt i)), cmp e.1 ((ih.nodeAt p).keys i) = .lt) ∧
      ∀ e ∈ ih.entriesIn (ih.pagesBelow n ((ih.nodeAt p).valueAt (i + 1))), cmp ((ih.nodeAt p).keys i) e.1 ≠ .gt

/-- A subtree whose leaves are `m` steps below its page. -/
structure Subtree (cmp : K → K → Ordering) (ih : IxIndexHandle K) (m : ℕ) (p : ℤ) : Prop where
  numbered : ih.Numbered
  noPage : ih.pages ixNoPage = none
  holds : ∀ n ≤ m, ∀ q ∈ ih.pagesBelow n p, ih.Holds q
  nodup : ((List.range (m + 1)).flatMap fun n => ih.pagesBelow n p).Nodup
  internal : ∀ n < m, ∀ q ∈ ih.pagesBelow n p, (ih.nodeAt q).isLeaf = false
  leaf : ∀ q ∈ ih.pagesBelow m p, (ih.nodeAt q).isLeaf = true
  nonempty : 1 < (ih.pagesBelow m p).length → ∀ q ∈ ih.pagesBelow m p, 0 < (ih.nodeAt q).numKey
  sorted : (ih.entriesIn (ih.pagesBelow m p)).Pairwise fun a b => cmp a.1 b.1 = .lt
  parent : ∀ n < m, ∀ q ∈ ih.pagesBelow n p, ∀ c ∈ ih.childPages q, (ih.nodeAt c).parent = q
  separators : ∀ n < m, ∀ q ∈ ih.pagesBelow n p, Bounds cmp ih (m - n - 1) q

/-- The subtree of a page `p'`, of height `m'`, has the entries that the subtree of `p` had, every internal node has
a child more than keys, and separators and parent fields are right. -/
structure KeepsSubtree (cmp : K → K → Ordering) (ih : IxIndexHandle K) (m : ℕ) (p : ℤ) (ih' : IxIndexHandle K) (m' : ℕ)
    (p' : ℤ) : Prop where
  entries : ih'.entriesIn (ih'.pagesBelow m' p') = ih.entriesIn (ih.pagesBelow m p)
  separators : ∀ n < m', ∀ q ∈ ih'.pagesBelow n p', Bounds cmp ih' (m' - n - 1) q
  children : ∀ n < m', ∀ q ∈ ih'.pagesBelow n p', (ih'.childPages q).Nodup ∧ ∀ c ∈ ih'.childPages q, ih'.Holds c
  parent : ∀ n < m', ∀ q ∈ ih'.pagesBelow n p', ∀ c ∈ ih'.childPages q, (ih'.nodeAt c).parent = q

/-! ### The three repairs -/

/-- A repair at a page: of its child `index` with the one before it, or of its first child with the second one. -/
inductive Rebalance where
  | redistribute (index : ℕ)
  | coalesce (index : ℕ)
  | adjustRoot
deriving DecidableEq

namespace Rebalance

/-- With `index = 0` the neighbor is on the right, and `coalesce` exchanges the two. It is taken up to where
it looks at the parent in turn. -/
def run (ih : IxIndexHandle K) (p : ℤ) : Rebalance → Except IxError (IxIndexHandle K)
  | redistribute index =>
    let neighborIdx := if 0 < index then index - 1 else index + 1
    ih.redistribute ((ih.nodeAt p).valueAt neighborIdx) ((ih.nodeAt p).valueAt index) p index
  | coalesce index =>
    let index := if index = 0 then 1 else index
    ih.mergeRight ((ih.nodeAt p).valueAt (index - 1)) ((ih.nodeAt p).valueAt index) p index
  | adjustRoot => do return (← ih.adjustRoot p).2

/-- The page has such a child and a neighbor of it; `adjust_root` is for the root. -/
def Applies (ih : IxIndexHandle K) (m : ℕ) (p : ℤ) : Rebalance → Prop
  | redistribute index => 0 < m ∧ 0 < (ih.nodeAt p).numKey ∧ index ≤ (ih.nodeAt p).numKey
  | coalesce index => 0 < m ∧ 0 < (ih.nodeAt p).numKey ∧ index ≤ (ih.nodeAt p).numKey
  | adjustRoot => p = ih.fileHdr.rootPage

/-- The page where the subtree stands afterwards. -/
def rootAfter (ih' : IxIndexHandle K) (p : ℤ) : Rebalance → ℤ
  | redistribute _ => p
  | coalesce _ => p
  | adjustRoot => ih'.fileHdr.rootPage

/-- The repair returns and keeps the subtree, which is one level lower under another page. -/
def Preserves (cmp : K → K → Ordering) (ih : IxIndexHandle K) (m : ℕ) (p : ℤ) (op : Rebalance) : Prop :=
  ∃ ih', op.run ih p = .ok ih' ∧
    KeepsSubtree cmp ih m p ih' (if op.rootAfter ih' p = p then m else m - 1) (op.rootAfter ih' p)

end Rebalance

variable {cmp : K → K → Ordering} {ih ih' : IxIndexHandle K} {m n : ℕ} {p q c : ℤ} {node : IxNodeHandle K}

/-! ### What a page holds, apart from its links -/

theorem childPages_congr (h : (ih'.nodeAt p).slots = (ih.nodeAt p).slots) : ih'.childPages p = ih.childPages p := by
  obtain ⟨hnum, hrest⟩ := Prod.mk.injEq .. ▸ h
  obtain ⟨-, hrids⟩ := Prod.mk.injEq .. ▸ hrest
  unfold childPages IxNodeHandle.valueAt
  rw [hnum, hrids]

theorem entries_congr (h : (ih'.nodeAt p).slots = (ih.nodeAt p).slots) : (ih'.nodeAt p).entries = (ih.nodeAt p).entries := by
  obtain ⟨hnum, hrest⟩ := Prod.mk.injEq .. ▸ h
  obtain ⟨hkeys, hrids⟩ := Prod.mk.injEq .. ▸ hrest
  unfold IxNodeHandle.entries
  rw [hnum, hkeys, hrids]

theorem pagesBelow_succ (n : ℕ) (p : ℤ) : ih.pagesBelow (n + 1) p = (ih.pagesBelow n p).flatMap ih.childPages :=
  Levels.descend_succ n [p]

/-- A subtree whose arrays stay is the same subtree. -/
theorem pagesBelow_congr (h : ∀ k < n, ∀ q ∈ ih.pagesBelow k p, (ih'.nodeAt q).slots = (ih.nodeAt q).slots) :
    ih'.pagesBelow n p = ih.pagesBelow n p := by
  induction n with
  | zero => rfl
  | succ n hrec =>
    have hbelow := hrec fun k hk => h k (Nat.lt_succ_of_lt hk)
    rw [pagesBelow_succ, pagesBelow_succ, hbelow]
    exact List.flatMap_congr fun q hq => childPages_congr (h n (Nat.lt_succ_self n) q hq)

theorem entriesIn_congr (h : ∀ k ≤ n, ∀ q ∈ ih.pagesBelow k p, (ih'.nodeAt q).slots = (ih.nodeAt q).slots) :
    ih'.entriesIn (ih'.pagesBelow n p) = ih.entriesIn (ih.pagesBelow n p) := by
  rw [pagesBelow_congr fun k hk => h k (Nat.le_of_lt hk)]
  exact List.flatMap_congr fun q hq => entries_congr (h n (Nat.le_refl n) q hq)

/-! ### The steps of a repair -/

theorem of_assertThat {P : Prop} [Decidable P] {u : Unit} (h : assertThat P = .ok u) : P := by
  have hends := ends_assertThat (p := P)
  rwa [h] at hends

omit [Inhabited K] in
theorem Numbered.writeNode (h : ih.Numbered) (node : IxNodeHandle K) : (ih.writeNode node).Numbered := by
  intro p node' hnode'
  by_cases hp : p = node.pageNo
  · have hself : (ih.writeNode node).pages p = some node := by
      rw [hp]
      exact Function.update_self ..
    rw [hself] at hnode'
    cases hnode'
    exact hp.symm
  · have hold : (ih.writeNode node).pages p = ih.pages p := Function.update_of_ne hp ..
    exact h p node' (hold ▸ hnode')

theorem Numbered.fetchNode (h : ih.Numbered) (hfetch : ih.fetchNode p = .ok node) : ih.nodeAt p = node ∧ node.pageNo = p := by
  unfold IxIndexHandle.fetchNode at hfetch
  split at hfetch
  · rename_i node' hnode
    cases hfetch
    exact ⟨by rw [nodeAt, hnode, Option.getD_some], h p node hnode⟩
  · cases hfetch

theorem Numbered.updateNode (h : ih.Numbered) {f : IxNodeHandle K → IxNodeHandle K} (hrun : ih.updateNode p f = .ok ih')
    (hf : ∀ node, (f node).pageNo = node.pageNo) : ih'.Numbered ∧ ih'.nodeAt = Function.update ih.nodeAt p (f (ih.nodeAt p)) := by
  obtain ⟨node, hfetch, hwrite⟩ := bind_eq_ok.mp hrun
  cases hwrite
  obtain ⟨hnode, hpage⟩ := h.fetchNode hfetch
  exact ⟨h.writeNode _, by rw [nodeAt_writeNode, hf, hpage, hnode]⟩

/-- `maintain_child` writes a link only. -/
theorem Numbered.maintainChild (h : ih.Numbered) {i : ℕ} (hrun : ih.maintainChild p i = .ok ih') :
    ih'.Numbered ∧ ∀ q, (ih'.nodeAt q).slots = (ih.nodeAt q).slots := by
  obtain ⟨node, -, hrun⟩ := bind_eq_ok.mp hrun
  split at hrun
  · cases hrun
    exact ⟨h, fun _ => rfl⟩
  · obtain ⟨-, -, hrun⟩ := bind_eq_ok.mp hrun
    obtain ⟨hnum, hnodes⟩ := h.updateNode hrun fun _ => rfl
    refine ⟨hnum, fun q => ?_⟩
    rw [hnodes]
    by_cases hq : q = node.valueAt i
    · rw [hq, Function.update_self]
      rfl
    · rw [Function.update_of_ne hq]

omit [Inhabited K] in
/-- A pair that is inserted. -/
theorem insertPairs_slots {hdr : IxFileHdr} {pos : ℕ} {key : K} {rid : Rid} {node' : IxNodeHandle K}
    (hrun : node.insertPairs hdr pos (fun _ => key) (fun _ => rid) 1 = .ok node') :
    node'.pageNo = node.pageNo ∧ node'.slots = (node.numKey + 1, insertAt node.keys node.numKey pos key,
      insertAt node.rids node.numKey pos rid) := by
  have hends : Ends IxError.Stops (fun node' => _ ∧ node' = _) (node.insertPairs hdr pos (fun _ => key) (fun _ => rid) 1) :=
    insertPairs_ends
  rw [hrun] at hends
  obtain ⟨-, rfl⟩ := hends
  refine ⟨rfl, ?_⟩
  unfold IxNodeHandle.slots
  dsimp only
  rw [insertMany_one, insertMany_one]

omit [Inhabited K] in
theorem erasePair_slots {hdr : IxFileHdr} {pos : ℕ} {node' : IxNodeHandle K} (hrun : node.erasePair hdr pos = .ok node') :
    pos < node.numKey ∧ node'.pageNo = node.pageNo ∧
      node'.slots = (node.numKey - 1, eraseAt node.keys node.numKey pos, eraseAt node.rids node.numKey pos) := by
  obtain ⟨_, hpos, hrun⟩ := bind_eq_ok.mp hrun
  obtain ⟨_, -, hrun⟩ := bind_eq_ok.mp hrun
  cases hrun
  exact ⟨of_assertThat hpos, rfl, rfl⟩

/-- The neighbor gives one pair away; in the parent, the key on the right of the two children is written. -/
theorem redistribute_slots (h : ih.Numbered) {neighbor node parent : ℤ} {index : ℕ} (hnode : neighbor ≠ node)
    (hparent : parent ≠ node) (hparent' : parent ≠ neighbor) (hrun : ih.redistribute neighbor node parent index = .ok ih') :
    (∃ j < (ih.nodeAt neighbor).numKey, ∃ i ≤ (ih.nodeAt node).numKey,
      (ih'.nodeAt node).slots = ((ih.nodeAt node).numKey + 1,
        insertAt (ih.nodeAt node).keys (ih.nodeAt node).numKey i ((ih.nodeAt neighbor).keys j),
        insertAt (ih.nodeAt node).rids (ih.nodeAt node).numKey i ((ih.nodeAt neighbor).rids j))) ∧
    (∃ key, (ih'.nodeAt parent).slots = ((ih.nodeAt parent).numKey,
      Function.update (ih.nodeAt parent).keys (if 0 < index then index else index + 1) key, (ih.nodeAt parent).rids)) ∧
    ∀ q, q ≠ node → q ≠ neighbor → q ≠ parent → (ih'.nodeAt q).slots = (ih.nodeAt q).slots := by
  obtain ⟨nodeHandle, hfetch, hrun⟩ := bind_eq_ok.mp hrun
  obtain ⟨neighborHandle, hfetch', hrun⟩ := bind_eq_ok.mp hrun
  obtain ⟨_, hpos, hrun⟩ := bind_eq_ok.mp hrun
  obtain ⟨nodeHandle', hinsert, hrun⟩ := bind_eq_ok.mp hrun
  obtain ⟨neighbor₁, hfetch₁, hrun⟩ := bind_eq_ok.mp hrun
  obtain ⟨erased, herase, hrun⟩ := bind_eq_ok.mp hrun
  obtain ⟨ih₃, hupdate, hmaintain⟩ := bind_eq_ok.mp hrun
  obtain ⟨rfl, hpage⟩ := h.fetchNode hfetch
  obtain ⟨rfl, hpage'⟩ := h.fetchNode hfetch'
  obtain ⟨hpageNode, hslots⟩ := insertPairs_slots hinsert
  rw [hpage] at hpageNode
  have h₁ := h.writeNode nodeHandle'
  obtain ⟨rfl, hpage₁⟩ := h₁.fetchNode hfetch₁
  obtain ⟨-, hpageErased, -⟩ := erasePair_slots herase
  rw [hpage₁] at hpageErased
  have h₂ := h₁.writeNode erased
  obtain ⟨h₃, hnodes⟩ := h₂.updateNode hupdate fun _ => rfl
  have hsame := (h₃.maintainChild hmaintain).2
  rw [nodeAt_writeNode, nodeAt_writeNode, hpageErased, hpageNode, Function.update_of_ne hparent',
    Function.update_of_ne hparent] at hnodes
  constructor
  · refine ⟨if 0 < index then (ih.nodeAt neighbor).numKey - 1 else 0, ?_,
      if 0 < index then 0 else (ih.nodeAt node).numKey, ?_, ?_⟩
    · have hpos := of_assertThat hpos
      split <;> omega
    · split
      · exact Nat.zero_le _
      · exact Nat.le_refl _
    · rw [hsame, hnodes, Function.update_of_ne hparent.symm, Function.update_of_ne hnode.symm, Function.update_self, hslots]
  · constructor
    · refine ⟨if 0 < index then nodeHandle'.keys 0 else erased.keys 0, ?_⟩
      rw [hsame, hnodes, Function.update_self]
      unfold IxNodeHandle.slots
      dsimp only
      split <;> rfl
    · intro q hq hq' hq''
      rw [hsame, hnodes, Function.update_of_ne hq'', Function.update_of_ne hq', Function.update_of_ne hq]

omit [Inhabited K] in
/-- The first child of the right node is written over the last one of the left node. -/
theorem appendChildren_slots {left right left' : IxNodeHandle K} {parentKey : K}
    (hrun : ih.appendChildren left right parentKey = .ok left') :
    left'.pageNo = left.pageNo ∧ left.numKey < left'.numKey ∧ left'.valueAt left.numKey = right.valueAt 0 := by
  obtain ⟨left₁, hfirst, hrun⟩ := bind_eq_ok.mp hrun
  have hinsert : ∀ {node node' : IxNodeHandle K} {key : K} {rid : Rid},
      node.insertPairs ih.fileHdr node.numKey (fun _ => key) (fun _ => rid) 1 = .ok node' →
      node'.pageNo = node.pageNo ∧ node'.numKey = node.numKey + 1 ∧
        ∀ i, node'.valueAt i = if i = node.numKey then rid.pageNo else node.valueAt i := by
    intro node node' key rid hnode
    obtain ⟨hpage, hslots⟩ := insertPairs_slots hnode
    obtain ⟨hnum, hrest⟩ := Prod.mk.injEq .. ▸ hslots
    obtain ⟨-, hrids⟩ := Prod.mk.injEq .. ▸ hrest
    refine ⟨hpage, hnum, fun i => ?_⟩
    unfold IxNodeHandle.valueAt
    rw [hrids]
    unfold insertAt
    split_ifs <;> first
      | rfl
      | omega
  obtain ⟨hpage, hnum, hvalue⟩ := hinsert hfirst
  refine of_foldlM (I := fun node : IxNodeHandle K => node.pageNo = left.pageNo ∧ left.numKey < node.numKey ∧
    node.valueAt left.numKey = right.valueAt 0) hrun ⟨hpage, by omega, by rw [hvalue, if_pos rfl]⟩ ?_
  intro node hnode i _ node' hstep
  obtain ⟨hpage', hnum', hvalue'⟩ := hinsert hstep
  refine ⟨hpage'.trans hnode.1, by omega, ?_⟩
  rw [hvalue', if_neg (by omega)]
  exact hnode.2.2

/-- What the left node is after a merge. -/
structure Merged (ih ih' : IxIndexHandle K) (left right : ℤ) : Prop where
  numbered : ih'.Numbered
  others : ∀ q, q ≠ left → (ih'.nodeAt q).slots = (ih.nodeAt q).slots
  /-- Of a right leaf nothing is moved. -/
  leaf : (ih.nodeAt right).isLeaf = true → (ih'.nodeAt left).slots = (ih.nodeAt left).slots
  internal : (ih.nodeAt right).isLeaf = false → (ih.nodeAt left).numKey < (ih'.nodeAt left).numKey ∧
    (ih'.nodeAt left).valueAt (ih.nodeAt left).numKey = (ih.nodeAt right).valueAt 0

/-- The pair at `index` leaves the parent. -/
theorem Merged.eraseParent {ih₁ : IxIndexHandle K} {left right parent : ℤ} {index : ℕ} (h : Merged ih ih₁ left right)
    (hparent : parent ≠ left) (hrun : (do
      let parentHandle ← (← ih₁.fetchNode parent).erasePair ih₁.fileHdr index
      return ih₁.writeNode parentHandle) = Except.ok ih') :
    index < (ih.nodeAt parent).numKey ∧ (ih'.nodeAt parent).slots = ((ih.nodeAt parent).numKey - 1,
      eraseAt (ih.nodeAt parent).keys (ih.nodeAt parent).numKey index,
      eraseAt (ih.nodeAt parent).rids (ih.nodeAt parent).numKey index) ∧
    ∀ q, q ≠ parent → ih'.nodeAt q = ih₁.nodeAt q := by
  obtain ⟨parent₁, hfetch, hrun⟩ := bind_eq_ok.mp hrun
  obtain ⟨erased, herase, hrun⟩ := bind_eq_ok.mp hrun
  cases hrun
  obtain ⟨rfl, hpage₁⟩ := h.numbered.fetchNode hfetch
  obtain ⟨hpos, hpage, hslots⟩ := erasePair_slots herase
  rw [hpage₁] at hpage
  obtain ⟨hnum, hrest⟩ := Prod.mk.injEq .. ▸ h.others parent hparent
  obtain ⟨hkeys, hrids⟩ := Prod.mk.injEq .. ▸ hrest
  rw [nodeAt_writeNode, hpage]
  rw [hnum] at hpos
  refine ⟨hpos, ?_, fun q hq => Function.update_of_ne hq ..⟩
  rw [Function.update_self, hslots, hnum, hkeys, hrids]

theorem mergeRight_slots (h : ih.Numbered) {left right parent : ℤ} {index : ℕ} (hparent : parent ≠ left)
    (hrun : ih.mergeRight left right parent index = .ok ih') :
    ∃ ih₁, Merged ih ih₁ left right ∧ index < (ih.nodeAt parent).numKey ∧
      (ih'.nodeAt parent).slots = ((ih.nodeAt parent).numKey - 1,
        eraseAt (ih.nodeAt parent).keys (ih.nodeAt parent).numKey index,
        eraseAt (ih.nodeAt parent).rids (ih.nodeAt parent).numKey index) ∧
      ∀ q, q ≠ parent → ih'.nodeAt q = ih₁.nodeAt q := by
  obtain ⟨rightHandle, hfetch, hrun⟩ := bind_eq_ok.mp hrun
  obtain ⟨leftHandle, hfetch', hrun⟩ := bind_eq_ok.mp hrun
  obtain ⟨parentHandle, -, hrun⟩ := bind_eq_ok.mp hrun
  obtain ⟨rfl, hpageRight⟩ := h.fetchNode hfetch
  obtain ⟨rfl, hpageLeft⟩ := h.fetchNode hfetch'
  dsimp only at hrun
  split at hrun
  · rename_i hleaf
    obtain ⟨ih₁, hlink, hrun⟩ := bind_eq_ok.mp hrun
    have hnodes : ih₁.Numbered ∧ ∀ q, (ih₁.nodeAt q).slots = (ih.nodeAt q).slots := by
      have hwrite : ∀ q, ((ih.writeNode { ih.nodeAt left with nextLeaf := (ih.nodeAt right).nextLeaf }).nodeAt q).slots =
          (ih.nodeAt q).slots := by
        intro q
        rw [nodeAt_writeNode]
        dsimp only
        rw [hpageLeft]
        by_cases hq : q = left
        · rw [hq, Function.update_self]
          rfl
        · rw [Function.update_of_ne hq]
      cases hlink
      split
      · exact ⟨h.writeNode _, hwrite⟩
      · exact ⟨h.writeNode _, hwrite⟩
    have hmerged : Merged ih ih₁ left right :=
      ⟨hnodes.1, fun q _ => hnodes.2 q, fun _ => hnodes.2 left, fun hfalse => by rw [hleaf] at hfalse; cases hfalse⟩
    exact ⟨ih₁, hmerged, hmerged.eraseParent hparent hrun⟩
  · rename_i hleaf
    obtain ⟨_, -, hrun⟩ := bind_eq_ok.mp hrun
    obtain ⟨left', happend, hrun⟩ := bind_eq_ok.mp hrun
    obtain ⟨ih₁, hmaintain, hrun⟩ := bind_eq_ok.mp hrun
    obtain ⟨hpage, hnum, hvalue⟩ := appendChildren_slots happend
    rw [hpageLeft] at hpage
    have hnodes : ih₁.Numbered ∧ ∀ q, (ih₁.nodeAt q).slots = ((ih.writeNode left').nodeAt q).slots := by
      refine of_foldlM (I := fun ih₂ : IxIndexHandle K => ih₂.Numbered ∧
        ∀ q, (ih₂.nodeAt q).slots = ((ih.writeNode left').nodeAt q).slots) hmaintain ⟨h.writeNode left', fun _ => rfl⟩ ?_
      intro ih₂ hih₂ i _ ih₃ hstep
      obtain ⟨hnumbered, hsame⟩ := hih₂.1.maintainChild hstep
      exact ⟨hnumbered, fun q => (hsame q).trans (hih₂.2 q)⟩
    have hleft : (ih₁.nodeAt left).slots = left'.slots := by
      rw [hnodes.2, nodeAt_writeNode, hpage, Function.update_self]
    obtain ⟨hnum', hrest⟩ := Prod.mk.injEq .. ▸ hleft
    obtain ⟨-, hrids⟩ := Prod.mk.injEq .. ▸ hrest
    have hmerged : Merged ih ih₁ left right := by
      refine ⟨hnodes.1, fun q hq => ?_, fun htrue => absurd htrue hleaf, fun _ => ⟨by rw [hnum']; exact hnum, ?_⟩⟩
      · rw [hnodes.2, nodeAt_writeNode, hpage, Function.update_of_ne hq]
      · rw [← hvalue]
        unfold IxNodeHandle.valueAt
        rw [hrids]
    exact ⟨ih₁, hmerged, hmerged.eraseParent hparent hrun⟩

/-! ### The entries of a subtree -/

theorem pagesBelow_succ' (n : ℕ) (p : ℤ) :
    ih.pagesBelow (n + 1) p = (ih.childPages p).flatMap fun c => ih.pagesBelow n c := by
  have hfirst : ih.pagesBelow (n + 1) p = Levels.descend ih.childPages n (ih.childPages p) := by
    unfold pagesBelow
    rw [Levels.descend, List.flatMap_singleton]
  rw [hfirst]
  exact Levels.descend_eq_flatMap n _

theorem mem_pagesBelow_add {k : ℕ} (hq : q ∈ ih.pagesBelow n p) (hc : c ∈ ih.pagesBelow k q) : c ∈ ih.pagesBelow (n + k) p := by
  unfold pagesBelow
  rw [Levels.descend_add, Levels.descend_eq_flatMap]
  exact List.mem_flatMap.mpr ⟨q, hq, hc⟩

theorem mem_childPages {i : ℕ} (hi : i ≤ (ih.nodeAt p).numKey) : (ih.nodeAt p).valueAt i ∈ ih.childPages p :=
  mem_toList.mpr ⟨i, Nat.lt_succ_of_le hi, rfl⟩

theorem mem_entriesIn_child {e : K × Rid} (hc : c ∈ ih.childPages p) (he : e ∈ ih.entriesIn (ih.pagesBelow n c)) :
    e ∈ ih.entriesIn (ih.pagesBelow (n + 1) p) := by
  obtain ⟨q, hq, he⟩ := List.mem_flatMap.mp he
  rw [pagesBelow_succ']
  exact List.mem_flatMap.mpr ⟨q, List.mem_flatMap.mpr ⟨c, hc, hq⟩, he⟩

theorem childPages_ne_nil (ih : IxIndexHandle K) (p : ℤ) : ih.childPages p ≠ [] :=
  List.ne_nil_of_mem (mem_childPages (Nat.zero_le _))

theorem pagesBelow_one (p : ℤ) : ih.pagesBelow 1 p = ih.childPages p := List.flatMap_singleton ..

namespace Subtree

variable (h : Subtree cmp ih m p)
include h

/-- A page stands in one level only. -/
theorem level_unique {k : ℕ} (hn : n ≤ m) (hk : k ≤ m) (hq : q ∈ ih.pagesBelow n p) (hq' : q ∈ ih.pagesBelow k p) : n = k := by
  have hpair := List.pairwise_iff_getElem.mp (List.nodup_flatMap.mp h.nodup).2
  have hapart : ∀ i j : ℕ, i < j → j ≤ m → q ∈ ih.pagesBelow i p → q ∉ ih.pagesBelow j p := by
    intro i j hij hj hi
    have hdisjoint := hpair i j (by simp; omega) (by simp; omega) hij
    simp only [List.getElem_range] at hdisjoint
    exact fun hj => hdisjoint hi hj
  rcases Nat.lt_trichotomy n k with hlt | heq | hlt
  · exact absurd hq' (hapart n k hlt hk hq)
  · exact heq
  · exact absurd hq (hapart k n hlt hn hq')

theorem childPages_nodup (hn : n < m) (hq : q ∈ ih.pagesBelow n p) : (ih.childPages q).Nodup := by
  have hlevel := (List.nodup_flatMap.mp h.nodup).1 (n + 1) (List.mem_range.mpr (by omega))
  rw [pagesBelow_succ] at hlevel
  exact (List.nodup_flatMap.mp hlevel).1 q hq

theorem valueAt_inj (hm : 0 < m) {i j : ℕ} (hi : i ≤ (ih.nodeAt p).numKey) (hj : j ≤ (ih.nodeAt p).numKey)
    (heq : (ih.nodeAt p).valueAt i = (ih.nodeAt p).valueAt j) : i = j := by
  have hnodup := h.childPages_nodup hm (List.mem_singleton_self p)
  unfold childPages toList at hnodup
  rw [List.nodup_map_iff_inj_on List.nodup_range] at hnodup
  exact hnodup i (List.mem_range.mpr (by omega)) j (List.mem_range.mpr (by omega)) heq

/-- A node with a key has two leaves below it, so that no leaf is empty. -/
theorem exists_mem_entries (hm : 0 < m) (hkey : 0 < (ih.nodeAt p).numKey) (hn : n ≤ m) (hq : q ∈ ih.pagesBelow n p) :
    ∃ e, e ∈ ih.entriesIn (ih.pagesBelow (m - n) q) := by
  obtain ⟨m, rfl⟩ := Nat.exists_eq_succ_of_ne_zero hm.ne'
  have hleaves : 1 < (ih.pagesBelow (m + 1) p).length := by
    have hchildren : (ih.childPages p).length = (ih.nodeAt p).numKey + 1 := length_toList ..
    have hlength := Levels.length_le_descend ih.childPages_ne_nil m (ih.childPages p)
    have hfirst : ih.pagesBelow (m + 1) p = Levels.descend ih.childPages m (ih.childPages p) := by
      unfold pagesBelow
      rw [Levels.descend, List.flatMap_singleton]
    rw [hfirst]
    omega
  have hbelow : ih.pagesBelow (m + 1 - n) q ≠ [] := by
    have hlength := Levels.length_le_descend ih.childPages_ne_nil (m + 1 - n) [q]
    exact List.length_pos_iff.mp hlength
  obtain ⟨leaf, hleaf⟩ := List.exists_mem_of_ne_nil _ hbelow
  have hmem : leaf ∈ ih.pagesBelow (m + 1) p := by
    have hadd := mem_pagesBelow_add hq hleaf
    rwa [Nat.add_sub_cancel' hn] at hadd
  have hpos := h.nonempty hleaves leaf hmem
  refine ⟨_, List.mem_flatMap.mpr ⟨leaf, hleaf, mem_toList.mpr ⟨0, hpos, rfl⟩⟩⟩

/-! ### Redistribution -/

/-- A child of a child stands two levels down, and so does what is below it. -/
theorem slots_below {x : ℤ} {k : ℕ} (hm : 0 < m) (hc : c ∈ ih.childPages p) (hx : x ∈ ih.childPages c)
    (hk : k + 2 = m) (hsame : ∀ q, q ∉ ih.pagesBelow 0 p → q ∉ ih.pagesBelow 1 p →
      (ih'.nodeAt q).slots = (ih.nodeAt q).slots) :
    ih'.entriesIn (ih'.pagesBelow k x) = ih.entriesIn (ih.pagesBelow k x) := by
  apply entriesIn_congr
  intro j hj q hq
  have hlevel : q ∈ ih.pagesBelow (2 + j) p := by
    refine mem_pagesBelow_add ?_ hq
    rw [pagesBelow_succ, pagesBelow_one]
    exact List.mem_flatMap.mpr ⟨c, hc, hx⟩
  apply hsame
  · intro hzero
    have heq := h.level_unique (Nat.zero_le m) (show 2 + j ≤ m by omega) hzero hlevel
    omega
  · intro hone
    have heq := h.level_unique hm (show 2 + j ≤ m by omega) hone hlevel
    omega

/-- A pair that moves from one child to another brings an entry along. -/
theorem exists_moved {giver taker : ℤ} {i j : ℕ} (hm : 0 < m) (hkey : 0 < (ih.nodeAt p).numKey)
    (hfrom : giver ∈ ih.childPages p) (hj : j < (ih.nodeAt giver).numKey) (hi : i ≤ (ih.nodeAt taker).numKey)
    (hslots : (ih'.nodeAt taker).slots = ((ih.nodeAt taker).numKey + 1,
      insertAt (ih.nodeAt taker).keys (ih.nodeAt taker).numKey i ((ih.nodeAt giver).keys j),
      insertAt (ih.nodeAt taker).rids (ih.nodeAt taker).numKey i ((ih.nodeAt giver).rids j)))
    (hsame : ∀ q, q ∉ ih.pagesBelow 0 p → q ∉ ih.pagesBelow 1 p → (ih'.nodeAt q).slots = (ih.nodeAt q).slots) :
    ∃ e ∈ ih.entriesIn (ih.pagesBelow (m - 1) giver), e ∈ ih'.entriesIn (ih'.pagesBelow (m - 1) taker) := by
  obtain ⟨hnum, hrest⟩ := Prod.mk.injEq .. ▸ hslots
  obtain ⟨hkeys, hrids⟩ := Prod.mk.injEq .. ▸ hrest
  have hnew : ∀ {α : Type} (f : ℕ → α) (x : α), insertAt f (ih.nodeAt taker).numKey i x i = x := by
    intro α f x
    unfold insertAt
    rw [if_neg (by omega), if_pos rfl]
  obtain ⟨m, rfl⟩ : ∃ k, m = k + 1 := ⟨m - 1, by omega⟩
  rw [Nat.add_sub_cancel]
  cases m with
  | zero =>
    refine ⟨((ih.nodeAt giver).keys j, (ih.nodeAt giver).rids j), ?_, ?_⟩
    · exact List.mem_flatMap.mpr ⟨giver, List.mem_singleton_self _, mem_toList.mpr ⟨j, hj, rfl⟩⟩
    · refine List.mem_flatMap.mpr ⟨taker, List.mem_singleton_self _, mem_toList.mpr ⟨i, ?_, ?_⟩⟩
      · rw [hnum]
        exact Nat.lt_succ_of_le hi
      · rw [hkeys, hrids, hnew, hnew]
  | succ k =>
    have hx : (ih.nodeAt giver).valueAt j ∈ ih.childPages giver := mem_childPages (Nat.le_of_lt hj)
    have hx' : (ih.nodeAt giver).valueAt j ∈ ih'.childPages taker := by
      refine mem_toList.mpr ⟨i, by rw [hnum]; omega, ?_⟩
      unfold IxNodeHandle.valueAt
      rw [hrids, hnew]
    have hlevel : (ih.nodeAt giver).valueAt j ∈ ih.pagesBelow 2 p := by
      rw [pagesBelow_succ, pagesBelow_one]
      exact List.mem_flatMap.mpr ⟨giver, hfrom, hx⟩
    obtain ⟨e, he⟩ := h.exists_mem_entries hm hkey (show 2 ≤ k + 2 by omega) hlevel
    rw [show k + 1 + 1 - 2 = k by omega] at he
    refine ⟨e, mem_entriesIn_child hx he, mem_entriesIn_child hx' ?_⟩
    rw [h.slots_below hm hfrom hx rfl hsame]
    exact he

/-- The moved entry stands on the wrong side of the separator between the two children, which is not written. -/
theorem not_redistribute [Std.OrientedCmp cmp] {index : ℕ} (happ : (Rebalance.redistribute index).Applies ih m p) :
    ¬(Rebalance.redistribute index).Preserves cmp ih m p := by
  obtain ⟨hm, hkey, hindex⟩ := happ
  intro ⟨ih', hrun, hkeep⟩
  have hroot : (Rebalance.redistribute index).rootAfter ih' p = p := rfl
  rw [hroot, if_pos rfl] at hkeep
  -- the two children, and the separator between them
  obtain ⟨other, hother, hpair⟩ : ∃ other, other = (if 0 < index then index - 1 else index + 1) ∧
      (other ≤ (ih.nodeAt p).numKey ∧ other ≠ index) := ⟨_, rfl, by split <;> omega⟩
  have hneighbor : (ih.nodeAt p).valueAt other ∈ ih.childPages p := mem_childPages hpair.1
  have hnode : (ih.nodeAt p).valueAt index ∈ ih.childPages p := mem_childPages hindex
  have hne : (ih.nodeAt p).valueAt other ≠ (ih.nodeAt p).valueAt index := fun heq =>
    hpair.2 (h.valueAt_inj hm hpair.1 hindex heq)
  have hbelow : ∀ c ∈ ih.childPages p, p ≠ c := by
    intro c hc heq
    rw [← pagesBelow_one] at hc
    have hlevel := h.level_unique (Nat.zero_le m) hm (List.mem_singleton_self p) (heq ▸ hc)
    cases hlevel
  unfold Rebalance.run at hrun
  dsimp only at hrun
  rw [← hother] at hrun
  obtain ⟨⟨j, hj, i, hi, hslots⟩, ⟨key, hparent⟩, hsame⟩ :=
    redistribute_slots h.numbered hne (hbelow _ hnode) (hbelow _ hneighbor) hrun
  obtain ⟨e, he, he'⟩ := h.exists_moved hm hkey hneighbor hj hi hslots (by
    intro q hzero hone
    rw [pagesBelow_one] at hone
    refine hsame q (fun heq => hone (heq ▸ hnode)) (fun heq => hone (heq ▸ hneighbor)) fun heq => hzero ?_
    rw [heq]
    exact List.mem_singleton_self p)
  obtain ⟨hnum, hrest⟩ := Prod.mk.injEq .. ▸ hparent
  obtain ⟨hkeys, hrids⟩ := Prod.mk.injEq .. ▸ hrest
  have hvalue : ∀ i, (ih'.nodeAt p).valueAt i = (ih.nodeAt p).valueAt i := by
    intro i
    unfold IxNodeHandle.valueAt
    rw [hrids]
  have hsep : (ih'.nodeAt p).keys (index - 1) = (ih.nodeAt p).keys (index - 1) := by
    rw [hkeys]
    exact Function.update_of_ne (by split <;> omega) ..
  have hbefore := h.separators 0 hm p (List.mem_singleton_self p) (index - 1) (by omega)
  have hafter := hkeep.separators 0 hm p (List.mem_singleton_self p) (index - 1) (by rw [hnum]; omega)
  rw [Nat.sub_zero] at hbefore hafter
  rw [hsep, hvalue, hvalue] at hafter
  by_cases hpos : 0 < index
  · rw [if_pos hpos] at hother
    rw [show index - 1 + 1 = index by omega] at hafter
    have hlt := hbefore.1 e (hother ▸ he)
    exact hafter.2 e he' (Std.OrientedCmp.gt_of_lt hlt)
  · rw [if_neg hpos] at hother
    obtain rfl : index = 0 := by omega
    have hlt := hafter.1 e he'
    exact hbefore.2 e (hother ▸ he) (Std.OrientedCmp.gt_of_lt hlt)

/-! ### Merging -/

theorem self_ne_child (hm : 0 < m) (hc : c ∈ ih.childPages p) : p ≠ c := by
  intro heq
  rw [← pagesBelow_one] at hc
  have hlevel := h.level_unique (Nat.zero_le m) hm (List.mem_singleton_self p) (heq ▸ hc)
  cases hlevel

/-- With the pair behind the last key erased, the last child is lost. -/
theorem entries_lost_child (hm : m = 1) (hkey : 0 < (ih.nodeAt p).numKey)
    (hnum : (ih'.nodeAt p).numKey = (ih.nodeAt p).numKey - 1)
    (hvalue : ∀ i < (ih.nodeAt p).numKey, (ih'.nodeAt p).valueAt i = (ih.nodeAt p).valueAt i)
    (hsame : ∀ c ∈ ih.childPages p, (ih'.nodeAt c).slots = (ih.nodeAt c).slots) :
    ih'.entriesIn (ih'.pagesBelow m p) ≠ ih.entriesIn (ih.pagesBelow m p) := by
  intro heq
  have hlast : (ih.nodeAt p).valueAt (ih.nodeAt p).numKey ∈ ih.childPages p := mem_childPages (Nat.le_refl _)
  have hlevel : (ih.nodeAt p).valueAt (ih.nodeAt p).numKey ∈ ih.pagesBelow 1 p := by
    rw [pagesBelow_one]
    exact hlast
  obtain ⟨e, he⟩ := h.exists_mem_entries (by omega) hkey (show 1 ≤ m by omega) hlevel
  have hold : ih.childPages p = ih'.childPages p ++ [(ih.nodeAt p).valueAt (ih.nodeAt p).numKey] := by
    unfold childPages toList
    rw [List.range_succ, List.map_append, hnum, Nat.sub_add_cancel hkey]
    congr 1
    exact List.map_congr_left fun i hi => (hvalue i (List.mem_range.mp hi)).symm
  have hkept : ih'.entriesIn (ih'.childPages p) = ih.entriesIn (ih'.childPages p) := by
    refine List.flatMap_congr fun c hc => entries_congr (hsame c ?_)
    rw [hold]
    exact List.mem_append_left _ hc
  subst hm
  rw [pagesBelow_one, pagesBelow_one, hkept, hold] at heq
  unfold entriesIn at heq
  rw [List.flatMap_append] at heq
  have hnone := List.append_cancel_left ((List.append_nil _).trans heq)
  change e ∈ [_].flatMap _ at he
  rw [← hnone] at he
  cases he

/-- The parent's pair at `index` takes a child along that is not the merged one, and the merged one stays. -/
theorem not_coalesce {index : ℕ} (happ : (Rebalance.coalesce index).Applies ih m p) :
    ¬(Rebalance.coalesce index).Preserves cmp ih m p := by
  obtain ⟨hm, hkey, hindex⟩ := happ
  intro ⟨ih', hrun, hkeep⟩
  have hroot : (Rebalance.coalesce index).rootAfter ih' p = p := rfl
  rw [hroot, if_pos rfl] at hkeep
  obtain ⟨i, hi, hpos, hle⟩ : ∃ i, i = (if index = 0 then 1 else index) ∧ 0 < i ∧ i ≤ (ih.nodeAt p).numKey :=
    ⟨_, rfl, by split <;> omega, by split <;> omega⟩
  have hleft : (ih.nodeAt p).valueAt (i - 1) ∈ ih.childPages p := mem_childPages (by omega)
  have hright : (ih.nodeAt p).valueAt i ∈ ih.childPages p := mem_childPages hle
  have hlevel : (ih.nodeAt p).valueAt i ∈ ih.pagesBelow 1 p := by
    rw [pagesBelow_one]
    exact hright
  have hne : (ih.nodeAt p).valueAt i ≠ (ih.nodeAt p).valueAt (i - 1) := fun heq => by
    have hsame := h.valueAt_inj hm hle (by omega) heq
    omega
  unfold Rebalance.run at hrun
  dsimp only at hrun
  rw [← hi] at hrun
  obtain ⟨ih₁, hmerged, hlt, hparent, hothers⟩ := mergeRight_slots h.numbered (h.self_ne_child hm hleft) hrun
  obtain ⟨hnum, hrest⟩ := Prod.mk.injEq .. ▸ hparent
  obtain ⟨-, hrids⟩ := Prod.mk.injEq .. ▸ hrest
  have hvalue : ∀ j, (ih'.nodeAt p).valueAt j =
      if i ≤ j ∧ j + 1 < (ih.nodeAt p).numKey then (ih.nodeAt p).valueAt (j + 1) else (ih.nodeAt p).valueAt j := by
    intro j
    unfold IxNodeHandle.valueAt
    rw [hrids]
    unfold eraseAt
    split <;> rfl
  rcases Nat.lt_or_eq_of_le (Nat.le_sub_one_of_lt hlt) with hshort | hlast
  · -- the last two slots name the same child
    have hnodup := (hkeep.children 0 hm p (List.mem_singleton_self p)).1
    unfold childPages toList at hnodup
    rw [List.nodup_map_iff_inj_on List.nodup_range] at hnodup
    have hsame := hnodup ((ih.nodeAt p).numKey - 2) (List.mem_range.mpr (by omega)) ((ih.nodeAt p).numKey - 1)
      (List.mem_range.mpr (by omega)) (by
        rw [hvalue, hvalue, if_pos (by omega), if_neg (by omega)]
        congr 1
        omega)
    omega
  · have hstay : ∀ j < (ih.nodeAt p).numKey, (ih'.nodeAt p).valueAt j = (ih.nodeAt p).valueAt j := by
      intro j hj
      rw [hvalue, if_neg (by omega)]
    rcases Nat.lt_or_eq_of_le (Nat.succ_le_of_lt hm) with hdeep | rfl
    · -- the first child of the right node has two parents
      have hinner := hmerged.internal (h.internal 1 hdeep _ hlevel)
      have hleft' : (ih.nodeAt p).valueAt (i - 1) ∈ ih'.pagesBelow 1 p := by
        rw [pagesBelow_one, ← hstay _ (by omega)]
        exact mem_childPages (by omega)
      have hright' : (ih.nodeAt p).valueAt i ∈ ih'.pagesBelow 1 p := by
        rw [pagesBelow_one, ← hstay _ hlt]
        exact mem_childPages (by omega)
      have hslots : (ih'.nodeAt ((ih.nodeAt p).valueAt i)).slots = (ih.nodeAt ((ih.nodeAt p).valueAt i)).slots := by
        rw [hothers _ (h.self_ne_child hm hright).symm]
        exact hmerged.others _ hne
      have hchild : (ih.nodeAt ((ih.nodeAt p).valueAt i)).valueAt 0 ∈ ih'.childPages ((ih.nodeAt p).valueAt i) := by
        rw [childPages_congr hslots]
        exact mem_childPages (Nat.zero_le _)
      have hchild' : (ih.nodeAt ((ih.nodeAt p).valueAt i)).valueAt 0 ∈ ih'.childPages ((ih.nodeAt p).valueAt (i - 1)) := by
        rw [← hinner.2, ← hothers _ (h.self_ne_child hm hleft).symm]
        refine mem_childPages (Nat.le_of_lt ?_)
        rw [hothers _ (h.self_ne_child hm hleft).symm]
        exact hinner.1
      have hone := hkeep.parent 1 hdeep _ hright' _ hchild
      have hother := hkeep.parent 1 hdeep _ hleft' _ hchild'
      exact hne (hone.symm.trans hother)
    · have hleaf := hmerged.leaf (h.leaf _ hlevel)
      refine h.entries_lost_child rfl hkey hnum hstay (fun c hc => ?_) hkeep.entries
      rw [hothers c (h.self_ne_child hm hc).symm]
      by_cases hc' : c = (ih.nodeAt p).valueAt (i - 1)
      · rw [hc']
        exact hleaf
      · exact hmerged.others c hc'

/-! ### The root -/

/-- One key is taken for one child: what is below the second child is lost. -/
theorem not_adjustRoot (hinternal : (ih.nodeAt p).isLeaf = false) (hone : (ih.nodeAt p).numKey = 1) :
    ¬Rebalance.adjustRoot.Preserves cmp ih m p := by
  intro ⟨ih', hrun, hkeep⟩
  have hm : 0 < m := by
    refine Nat.pos_of_ne_zero fun hzero => ?_
    subst hzero
    rw [h.leaf p (List.mem_singleton_self p)] at hinternal
    cases hinternal
  have hfetch := (h.holds 0 (Nat.zero_le m) p (List.mem_singleton_self p)).fetchNode
  have hfirst : (ih.nodeAt p).valueAt 0 ∈ ih.childPages p := mem_childPages (Nat.zero_le _)
  have hsecond : (ih.nodeAt p).valueAt 1 ∈ ih.pagesBelow 1 p := by
    rw [pagesBelow_one]
    exact mem_childPages (Nat.le_of_eq hone.symm)
  obtain ⟨r, hadjust, hret⟩ := bind_eq_ok.mp hrun
  cases hret
  unfold IxIndexHandle.adjustRoot at hadjust
  rw [hfetch] at hadjust
  change (if _ then _ else _) = _ at hadjust
  rw [if_pos ⟨hinternal, hone⟩] at hadjust
  obtain ⟨ih₁, hupdate, hroot⟩ := bind_eq_ok.mp hadjust
  cases hroot
  obtain ⟨-, hnodes⟩ := h.numbered.updateNode hupdate fun _ => rfl
  have hsame : ∀ q, (ih₁.nodeAt q).slots = (ih.nodeAt q).slots := by
    intro q
    rw [hnodes]
    by_cases hq : q = (ih.nodeAt p).valueAt 0
    · rw [hq, Function.update_self]
      rfl
    · rw [Function.update_of_ne hq]
  have hentries := hkeep.entries
  change (ih₁.setRootPage _).entriesIn ((ih₁.setRootPage _).pagesBelow (if (ih.nodeAt p).valueAt 0 = p then m else m - 1)
    ((ih.nodeAt p).valueAt 0)) = _ at hentries
  have hkept : (ih₁.setRootPage ((ih.nodeAt p).valueAt 0)).entriesIn
      ((ih₁.setRootPage ((ih.nodeAt p).valueAt 0)).pagesBelow (m - 1) ((ih.nodeAt p).valueAt 0)) =
      ih.entriesIn (ih.pagesBelow (m - 1) ((ih.nodeAt p).valueAt 0)) := entriesIn_congr fun _ _ q _ => hsame q
  rw [if_neg (h.self_ne_child hm hfirst).symm, hkept] at hentries
  obtain ⟨e, he⟩ := h.exists_mem_entries hm (by omega) hm hsecond
  obtain ⟨m, rfl⟩ : ∃ k, m = k + 1 := ⟨m - 1, by omega⟩
  have hpages : ih.pagesBelow (m + 1) p =
      ih.pagesBelow m ((ih.nodeAt p).valueAt 0) ++ ih.pagesBelow m ((ih.nodeAt p).valueAt 1) := by
    rw [pagesBelow_succ']
    unfold childPages
    rw [hone]
    change _ ++ (_ ++ []) = _
    rw [List.append_nil]
  unfold entriesIn at hentries
  rw [hpages, List.flatMap_append] at hentries
  have hnone := List.append_cancel_left ((List.append_nil _).trans hentries)
  change e ∈ List.flatMap _ (ih.pagesBelow m _) at he
  rw [← hnone] at he
  cases he

theorem keeps_self : KeepsSubtree cmp ih m p ih m p where
  entries := rfl
  separators := h.separators
  children n hn q hq := by
    refine ⟨h.childPages_nodup hn hq, fun c hc => h.holds (n + 1) hn c ?_⟩
    rw [pagesBelow_succ]
    exact List.mem_flatMap.mpr ⟨q, hq, hc⟩
  parent := h.parent

/-- A root without entries is given up; any other one stays as it is. -/
theorem preserves_adjustRoot (hother : ¬((ih.nodeAt p).isLeaf = false ∧ (ih.nodeAt p).numKey = 1))
    (hroot : p = ih.fileHdr.rootPage) :
    Rebalance.adjustRoot.Preserves cmp ih m p := by
  have hheld := h.holds 0 (Nat.zero_le m) p (List.mem_singleton_self p)
  have hrun : ∀ r : Bool × IxIndexHandle K, (if (ih.nodeAt p).isLeaf = true ∧ (ih.nodeAt p).numKey = 0 then
      (.ok (true, ih.setRootPage ixNoPage) : Except IxError (Bool × IxIndexHandle K)) else .ok (false, ih)) = .ok r →
      Rebalance.adjustRoot.run ih p = .ok r.2 := by
    intro r hr
    refine bind_eq_ok.mpr ⟨r, ?_, rfl⟩
    unfold IxIndexHandle.adjustRoot
    rw [hheld.fetchNode]
    exact (if_neg hother).trans hr
  by_cases hempty : (ih.nodeAt p).isLeaf = true ∧ (ih.nodeAt p).numKey = 0
  · refine ⟨ih.setRootPage ixNoPage, hrun (true, ih.setRootPage ixNoPage) (if_pos hempty), ?_⟩
    have hne : ixNoPage ≠ p := by
      rintro rfl
      obtain ⟨node, hnode, -⟩ := hheld
      rw [h.noPage] at hnode
      cases hnode
    have hm : m = 0 := by
      refine Nat.eq_zero_of_not_pos fun hpos => ?_
      have hinternal := h.internal 0 hpos p (List.mem_singleton_self p)
      rw [hempty.1] at hinternal
      cases hinternal
    subst hm
    change KeepsSubtree cmp ih 0 p (ih.setRootPage ixNoPage) (if ixNoPage = p then 0 else 0 - 1) ixNoPage
    rw [if_neg hne]
    refine ⟨?_, nofun, nofun, nofun⟩
    have hnone : (ih.nodeAt ixNoPage).entries = [] := by
      unfold nodeAt
      rw [h.noPage]
      rfl
    have hnone' : (ih.nodeAt p).entries = [] := by
      unfold IxNodeHandle.entries
      rw [hempty.2]
      rfl
    exact ((List.flatMap_singleton ..).trans hnone).trans ((List.flatMap_singleton ..).trans hnone').symm
  · refine ⟨ih, hrun (false, ih) (if_neg hempty), ?_⟩
    change KeepsSubtree cmp ih m p ih (if ih.fileHdr.rootPage = p then m else m - 1) ih.fileHdr.rootPage
    rw [← hroot, if_pos rfl]
    exact h.keeps_self

end Subtree

/-! ### The subtrees that are repaired -/

/-- The whole tree below its root. -/
theorem BPlusTree.subtree {entries : List (K × Rid)} {height : ℤ → ℕ} (h : BPlusTree cmp ih m entries)
    (hsound : Sound height ih) :
    Subtree cmp ih m ih.fileHdr.rootPage where
  numbered := hsound.pageNo
  noPage := by
    cases hnode : ih.pages ixNoPage with
    | none => rfl
    | some node =>
      have hrange := (hsound.range _ (hsound.holds hnode)).1
      exact absurd hrange (by decide)
  holds n hn q hq := by
    obtain ⟨hfetch, hpage⟩ := h.fetch n hn q hq
    unfold IxIndexHandle.fetchNode at hfetch
    split at hfetch
    · rename_i node hnode
      exact hsound.holds hnode
    · cases hfetch
  nodup := h.nodup
  internal := h.internal
  leaf := h.leaf
  nonempty hlen q hq := (h.numKey q hq).2 hlen
  sorted := h.sorted
  parent := h.parent
  separators := h.separators

theorem Sound.insertEntries {height : ℤ → ℕ} (h : Sound height ih) (hroot : ih.HoldsNode ih.fileHdr.rootPage)
    {entries : List (K × Rid)} (hrun : ih.insertEntries cmp entries = .ok ih') : ∃ height', Sound height' ih' := by
  have hgood : (∃ height', Sound height' ih') ∧ ih'.HoldsNode ih'.fileHdr.rootPage := by
    refine of_foldlM (I := fun ih : IxIndexHandle K => (∃ height', Sound height' ih) ∧ ih.HoldsNode ih.fileHdr.rootPage) hrun
      ⟨⟨height, h⟩, hroot⟩ ?_
    intro ih₁ hih₁ e _ ih₂ hstep
    obtain ⟨⟨height₁, h₁⟩, hroot₁⟩ := hih₁
    have hends : Ends _ (fun ih₂ => ∃ height', Evolves height₁ ih₁ height' ih₂) ((·.2) <$> ih₁.insertEntry cmp e.1 e.2) :=
      (h₁.insertEntry cmp hroot₁ e.1 e.2).map fun r hr => hr
    rw [hstep] at hends
    obtain ⟨height₂, hev⟩ := hends
    exact ⟨⟨height₂, hev.sound⟩, hev.usable hroot₁⟩
  exact hgood.1

theorem subtree_insertEntries [Std.TransCmp cmp] {btreeOrder colTotLen : ℕ} {unique : Bool} {entries : List (K × Rid)}
    (hd : Distinct cmp entries) (hrun : (freshIndex btreeOrder colTotLen unique).insertEntries cmp entries = .ok ih) :
    ∃ m, Subtree cmp ih m ih.fileHdr.rootPage := by
  obtain ⟨depth, htree⟩ := bPlusTree_of_insertEntries hd hrun
  obtain ⟨height, hsound⟩ := (sound_freshIndex btreeOrder colTotLen unique).insertEntries
    (holdsNode_freshIndex btreeOrder colTotLen unique) hrun
  exact ⟨depth, htree.subtree hsound⟩

theorem Subtree.depth_eq_one (h : Subtree cmp ih m p) (hroot : (ih.nodeAt p).isLeaf = false)
    (hchild : (ih.nodeAt ((ih.nodeAt p).valueAt 0)).isLeaf = true) : m = 1 := by
  have hmem : (ih.nodeAt p).valueAt 0 ∈ ih.pagesBelow 1 p := by
    rw [pagesBelow_one]
    exact mem_childPages (Nat.zero_le _)
  rcases Nat.lt_trichotomy m 1 with hlt | heq | hgt
  · obtain rfl : m = 0 := Nat.lt_one_iff.mp hlt
    rw [h.leaf p (List.mem_singleton_self p)] at hroot
    cases hroot
  · exact heq
  · rw [h.internal 1 hgt _ hmem] at hchild
    cases hchild

/-- What a removal from a leaf leaves behind, unless the leaf had one entry only. -/
theorem Subtree.erasePair (h : Subtree cmp ih m p) {hdr : IxFileHdr} {pos : ℕ} {leaf : ℤ} (hleaf : leaf ∈ ih.pagesBelow m p)
    (hkeys : 1 < (ih.nodeAt leaf).numKey) (herase : (ih.nodeAt leaf).erasePair hdr pos = .ok node) :
    Subtree cmp (ih.writeNode node) m p := by
  obtain ⟨hpos, hpage, hslots⟩ := erasePair_slots herase
  obtain ⟨hnum, hrest⟩ := Prod.mk.injEq .. ▸ hslots
  obtain ⟨hkeys', hrids⟩ := Prod.mk.injEq .. ▸ hrest
  have hlinks : node.isLeaf = (ih.nodeAt leaf).isLeaf ∧ node.parent = (ih.nodeAt leaf).parent := by
    obtain ⟨_, -, herase⟩ := bind_eq_ok.mp herase
    obtain ⟨_, -, herase⟩ := bind_eq_ok.mp herase
    cases herase
    exact ⟨rfl, rfl⟩
  have hfewer : node.entries.Sublist (ih.nodeAt leaf).entries := by
    unfold IxNodeHandle.entries
    rw [hnum, hkeys', hrids, toList_eraseAt_prod _ _ hpos]
    exact List.eraseIdx_sublist _ _
  have hnodeLeaf : node.pageNo = leaf := hpage.trans (h.holds m (Nat.le_refl m) leaf hleaf).pageNo
  have hself : (ih.writeNode node).nodeAt leaf = node := by
    rw [nodeAt_writeNode, hnodeLeaf, Function.update_self]
  have hsame : ∀ q, q ≠ leaf → (ih.writeNode node).nodeAt q = ih.nodeAt q := by
    intro q hq
    rw [nodeAt_writeNode, hnodeLeaf, Function.update_of_ne hq]
  have habove : ∀ n < m, ∀ q ∈ ih.pagesBelow n p, (ih.writeNode node).nodeAt q = ih.nodeAt q := by
    intro n hn q hq
    refine hsame q fun heq => ?_
    have hlevel := h.level_unique (Nat.le_of_lt hn) (Nat.le_refl m) hq (heq ▸ hleaf)
    omega
  have hfields : ∀ q, ((ih.writeNode node).nodeAt q).isLeaf = (ih.nodeAt q).isLeaf ∧
      ((ih.writeNode node).nodeAt q).parent = (ih.nodeAt q).parent ∧
      ((ih.writeNode node).nodeAt q).entries.Sublist (ih.nodeAt q).entries := by
    intro q
    by_cases hq : q = leaf
    · rw [hq, hself]
      exact ⟨hlinks.1, hlinks.2, hfewer⟩
    · rw [hsame q hq]
      exact ⟨rfl, rfl, .refl _⟩
  have hentries : ∀ l, ((ih.writeNode node).entriesIn l).Sublist (ih.entriesIn l) := fun l =>
    List.Sublist.flatMap_right l fun q _ => (hfields q).2.2
  have hpages : ∀ n k q, n + k ≤ m → q ∈ ih.pagesBelow n p → (ih.writeNode node).pagesBelow k q = ih.pagesBelow k q := by
    intro n k q hk hq
    refine pagesBelow_congr fun j hj r hr => ?_
    rw [habove (n + j) (by omega) r (mem_pagesBelow_add hq hr)]
  have hlevels : ∀ n ≤ m, (ih.writeNode node).pagesBelow n p = ih.pagesBelow n p := fun n hn =>
    hpages 0 n p (by omega) (List.mem_singleton_self p)
  have hlower : ∀ n < m, ∀ q ∈ ih.pagesBelow n p, (ih.writeNode node).childPages q = ih.childPages q := by
    intro n hn q hq
    exact childPages_congr (by rw [habove n hn q hq])
  refine ⟨h.numbered.writeNode node, ?_, ?_, ?_, ?_, ?_, ?_, ?_, ?_, ?_⟩
  · have hne : ixNoPage ≠ node.pageNo := by
      rintro heq
      obtain ⟨node', hnode', -⟩ := h.holds m (Nat.le_refl m) leaf hleaf
      rw [← hnodeLeaf, ← heq, h.noPage] at hnode'
      cases hnode'
    exact (Function.update_of_ne hne ..).trans h.noPage
  · intro n hn q hq
    rw [hlevels n hn] at hq
    exact (h.holds n hn q hq).writeNode
  · have heq : ((List.range (m + 1)).flatMap fun n => (ih.writeNode node).pagesBelow n p) =
        (List.range (m + 1)).flatMap fun n => ih.pagesBelow n p :=
      List.flatMap_congr fun n hn => hlevels n (Nat.le_of_lt_succ (List.mem_range.mp hn))
    rw [heq]
    exact h.nodup
  · intro n hn q hq
    rw [hlevels n (Nat.le_of_lt hn)] at hq
    rw [(hfields q).1]
    exact h.internal n hn q hq
  · intro q hq
    rw [hlevels m (Nat.le_refl m)] at hq
    rw [(hfields q).1]
    exact h.leaf q hq
  · intro hlen q hq
    rw [hlevels m (Nat.le_refl m)] at hlen hq
    by_cases hq' : q = leaf
    · rw [hq', hself, hnum]
      omega
    · rw [hsame q hq']
      exact h.nonempty hlen q hq
  · rw [hlevels m (Nat.le_refl m)]
    exact h.sorted.sublist (hentries _)
  · intro n hn q hq c hc
    rw [hlevels n (Nat.le_of_lt hn)] at hq
    rw [hlower n hn q hq] at hc
    rw [(hfields c).2.1]
    exact h.parent n hn q hq c hc
  · intro n hn q hq i hi
    rw [hlevels n (Nat.le_of_lt hn)] at hq
    rw [habove n hn q hq] at hi ⊢
    have hbelow : ∀ j ≤ (ih.nodeAt q).numKey, (ih.writeNode node).pagesBelow (m - n - 1) ((ih.nodeAt q).valueAt j) =
        ih.pagesBelow (m - n - 1) ((ih.nodeAt q).valueAt j) := by
      intro j hj
      refine hpages (n + 1) (m - n - 1) _ (by omega) ?_
      rw [pagesBelow_succ]
      exact List.mem_flatMap.mpr ⟨q, hq, mem_childPages hj⟩
    obtain ⟨hleft, hright⟩ := h.separators n hn q hq i hi
    rw [hbelow i (Nat.le_of_lt hi), hbelow (i + 1) hi]
    exact ⟨fun e he => hleft e ((hentries _).subset he), fun e he => hright e ((hentries _).subset he)⟩

/-- For a page with its subtree, of all the repairs only `adjust_root` keeps the subtree, and only if the root is not an
internal node with exactly one key. -/
theorem preserves_iff [Std.OrientedCmp cmp] {op : Rebalance} (h : Subtree cmp ih m p) (happ : op.Applies ih m p) :
    op.Preserves cmp ih m p ↔ op = .adjustRoot ∧ ¬((ih.nodeAt p).isLeaf = false ∧ (ih.nodeAt p).numKey = 1) := by
  cases op with
  | redistribute index => exact ⟨fun hkeep => absurd hkeep (h.not_redistribute happ), fun hcond => nomatch hcond.1⟩
  | coalesce index => exact ⟨fun hkeep => absurd hkeep (h.not_coalesce happ), fun hcond => nomatch hcond.1⟩
  | adjustRoot =>
    refine ⟨fun hkeep => ⟨rfl, fun hone => h.not_adjustRoot hone.1 hone.2 hkeep⟩, fun hcond => ?_⟩
    exact h.preserves_adjustRoot hcond.2 happ

/-- A root with one key over two leaves: `adjust_root` loses the second leaf. -/
theorem preserves_twoLeaves : ∃ (ih : IxIndexHandle (IxKey charCols)) (m : ℕ),
    (freshIndex 7 496 true).insertEntries IxKey.cmp charEntries = .ok ih ∧ Subtree IxKey.cmp ih m ih.fileHdr.rootPage ∧
      ¬Rebalance.adjustRoot.Preserves IxKey.cmp ih m ih.fileHdr.rootPage := by
  obtain ⟨ih, hrun, hinternal, hone⟩ : ∃ ih : IxIndexHandle (IxKey charCols),
      (freshIndex 7 496 true).insertEntries IxKey.cmp charEntries = .ok ih ∧
        (ih.nodeAt ih.fileHdr.rootPage).isLeaf = false ∧ (ih.nodeAt ih.fileHdr.rootPage).numKey = 1 := ⟨_, rfl, rfl, rfl⟩
  obtain ⟨m, hsub⟩ := subtree_insertEntries (by unfold Distinct; decide) hrun
  have happ : Rebalance.adjustRoot.Applies ih m ih.fileHdr.rootPage := rfl
  exact ⟨ih, m, hrun, hsub, fun hkeep => ((preserves_iff hsub happ).mp hkeep).2 ⟨hinternal, hone⟩⟩

/-- Nine keys on an index of order 7, of which the first one is removed: the left leaf gets the key 5 of its neighbor, and the
separator stays 5. -/
theorem not_preserves_underfull : ∃ (ih ih' : IxIndexHandle (IxKey charCols)) (leaf : IxNodeHandle (IxKey charCols)),
    (freshIndex 7 496 true).insertEntries IxKey.cmp (charEntries ++ [(charKey 9, ⟨1, 9⟩)]) = .ok ih ∧
      (ih.nodeAt ixInitRootPage).erasePair ih.fileHdr 0 = .ok leaf ∧ leaf.numKey < ih.fileHdr.minSize ∧
      Subtree IxKey.cmp (ih.writeNode leaf) 1 ih.fileHdr.rootPage ∧
      (Rebalance.redistribute 0).Applies (ih.writeNode leaf) 1 ih.fileHdr.rootPage ∧
      (Rebalance.redistribute 0).run (ih.writeNode leaf) ih.fileHdr.rootPage = .ok ih' ∧
      (ih'.nodeAt ixInitRootPage).numKey = 4 ∧ (ih'.nodeAt ixInitRootPage).keys 3 = charKey 5 ∧
      (ih'.nodeAt ih.fileHdr.rootPage).keys 0 = charKey 5 ∧
      ¬(Rebalance.redistribute 0).Preserves IxKey.cmp (ih.writeNode leaf) 1 ih.fileHdr.rootPage := by
  obtain ⟨ih, ih', leaf, hrun, herase, hroot, hchild, hfirst, hkeys, hparent, hunder, hredistribute, hmoved, hfifth, hsep⟩ :
      ∃ (ih ih' : IxIndexHandle (IxKey charCols)) (leaf : IxNodeHandle (IxKey charCols)),
        (freshIndex 7 496 true).insertEntries IxKey.cmp (charEntries ++ [(charKey 9, ⟨1, 9⟩)]) = .ok ih ∧
          (ih.nodeAt ixInitRootPage).erasePair ih.fileHdr 0 = .ok leaf ∧
          (ih.nodeAt ih.fileHdr.rootPage).isLeaf = false ∧
          (ih.nodeAt ((ih.nodeAt ih.fileHdr.rootPage).valueAt 0)).isLeaf = true ∧
          (ih.nodeAt ih.fileHdr.rootPage).valueAt 0 = ixInitRootPage ∧ (ih.nodeAt ixInitRootPage).numKey = 4 ∧
          ((ih.writeNode leaf).nodeAt ih.fileHdr.rootPage).numKey = 1 ∧ leaf.numKey < ih.fileHdr.minSize ∧
          (Rebalance.redistribute 0).run (ih.writeNode leaf) ih.fileHdr.rootPage = .ok ih' ∧
          (ih'.nodeAt ixInitRootPage).numKey = 4 ∧ (ih'.nodeAt ixInitRootPage).keys 3 = charKey 5 ∧
          (ih'.nodeAt ih.fileHdr.rootPage).keys 0 = charKey 5 :=
    ⟨_, _, _, rfl, rfl, rfl, rfl, rfl, rfl, rfl, by decide, rfl, rfl, rfl, rfl⟩
  obtain ⟨m, hsub⟩ := subtree_insertEntries (by unfold Distinct; decide) hrun
  obtain rfl := hsub.depth_eq_one hroot hchild
  have hmem : ixInitRootPage ∈ ih.pagesBelow 1 ih.fileHdr.rootPage := by
    rw [pagesBelow_one, ← hfirst]
    exact mem_childPages (Nat.zero_le _)
  have herased := hsub.erasePair hmem (by omega) herase
  have happ : (Rebalance.redistribute 0).Applies (ih.writeNode leaf) 1 ih.fileHdr.rootPage :=
    ⟨Nat.one_pos, by omega, Nat.zero_le _⟩
  exact ⟨ih, ih', leaf, hrun, herase, hunder, herased, happ, hredistribute, hmoved, hfifth, hsep, herased.not_redistribute happ⟩

end IxIndexHandle
end Rmdb
