import Rmdb.Index.Slots

/-! Operations on an index use its keys only through the comparison. So an index may be taken for one with other keys,
where these compare alike. -/
namespace SlotArray

variable {α β : Type*} (g : α → β)

theorem insertAt_map (f : ℕ → α) (n pos : ℕ) (x : α) :
    insertAt (fun i => g (f i)) n pos (g x) = fun i => g (insertAt f n pos x i) := by
  funext i
  simp only [insertAt]
  split_ifs <;> rfl

theorem insertMany_map (f new : ℕ → α) (n pos m : ℕ) :
    insertMany (fun i => g (f i)) n pos (fun i => g (new i)) m = fun i => g (insertMany f n pos new m i) := by
  funext i
  simp only [insertMany]
  split_ifs <;> rfl

end SlotArray

namespace Rmdb

variable {K L : Type} {f : K → L} {cmp : L → L → Ordering}

namespace IxNodeHandle

variable {hdr : IxFileHdr} {node : IxNodeHandle K} {key : K}

def map (f : K → L) (node : IxNodeHandle K) : IxNodeHandle L := { node with keys := fun i => f (node.keys i) }

theorem map_lowerBound : (node.map f).lowerBound cmp (f key) = node.lowerBound (fun a b => cmp (f a) (f b)) key := rfl

theorem map_leafLookup :
    (node.map f).leafLookup cmp (f key) = node.leafLookup (fun a b => cmp (f a) (f b)) key := rfl

theorem map_insertPairs (pos : ℕ) (key : ℕ → K) (rid : ℕ → Rid) (n : ℕ) :
    (node.map f).insertPairs hdr pos (fun i => f (key i)) rid n = map f <$> node.insertPairs hdr pos key rid n := by
  simp only [insertPairs, map_bind, map_pure, map, SlotArray.insertMany_map]
  rfl

theorem map_insert (value : Rid) : (node.map f).insert cmp hdr (f key) value =
    map f <$> node.insert (fun a b => cmp (f a) (f b)) hdr key value := by
  have hpairs : (node.map f).insertPairs hdr (node.lowerBound (fun a b => cmp (f a) (f b)) key) (fun _ => f key)
      (fun _ => value) 1 = _ := map_insertPairs _ (fun _ => key) (fun _ => value) 1
  unfold insert
  dsimp only
  rw [map_lowerBound, hpairs]
  change (if node.lowerBound (fun a b => cmp (f a) (f b)) key < node.numKey ∧
    cmp (f (node.keys (node.lowerBound (fun a b => cmp (f a) (f b)) key))) (f key) = .eq then _ else _) = _
  split
  · rfl
  · rfl

theorem map_insertPair (i : ℕ) (child : ℤ) :
    (node.map f).insertPair hdr i (f key) child = map f <$> node.insertPair hdr i key child := by
  have hnum : (node.map f).numKey = node.numKey := rfl
  simp only [insertPair, map_bind, hnum]
  refine bind_congr fun _ => bind_congr fun _ => bind_congr fun _ => ?_
  split
  · rfl
  · simp only [map, SlotArray.insertAt_map, map_pure]

end IxNodeHandle

namespace IxIndexHandle

variable {ih : IxIndexHandle K} {node newNode : IxNodeHandle K} {key : K} {p q : ℤ} {e : K × Rid}

def map (f : K → L) (ih : IxIndexHandle K) : IxIndexHandle L where
  fileHdr := ih.fileHdr
  pages p := (ih.pages p).map (·.map f)
  fd2pageno := ih.fd2pageno
  unique := ih.unique

theorem map_fetchNode (p : ℤ) : (ih.map f).fetchNode p = IxNodeHandle.map f <$> ih.fetchNode p := by
  unfold fetchNode map
  dsimp only
  cases ih.pages p with
  | none => rfl
  | some node => rfl

theorem map_writeNode (node : IxNodeHandle K) : (ih.map f).writeNode (node.map f) = (ih.writeNode node).map f := by
  unfold writeNode map
  congr 1
  funext p
  dsimp only [IxNodeHandle.map]
  by_cases hp : p = node.pageNo
  · simp only [hp, Function.update_self, Option.map_some]
  · simp only [Function.update_of_ne hp]

theorem map_updateNode {g : IxNodeHandle L → IxNodeHandle L} {g' : IxNodeHandle K → IxNodeHandle K}
    (hg : ∀ node, g (node.map f) = (g' node).map f) : (ih.map f).updateNode p g = map f <$> ih.updateNode p g' := by
  simp only [updateNode, map_fetchNode, bind_map_left, map_bind, hg, map_writeNode, map_pure]

theorem map_findLeafFrom (fuel : ℕ) (p : ℤ) : (ih.map f).findLeafFrom cmp (f key) fuel p =
    IxNodeHandle.map f <$> ih.findLeafFrom (fun a b => cmp (f a) (f b)) key fuel p := by
  induction fuel generalizing p with
  | zero => rfl
  | succ fuel hrec =>
    unfold findLeafFrom
    rw [map_fetchNode, bind_map_left, map_bind]
    refine bind_congr fun node => ?_
    have hleaf : (node.map f).isLeaf = node.isLeaf := rfl
    rw [hleaf]
    split
    · rfl
    · rw [map_bind]
      exact bind_congr fun child => hrec child

theorem map_findLeafPage : (ih.map f).findLeafPage cmp (f key) =
    IxNodeHandle.map f <$> ih.findLeafPage (fun a b => cmp (f a) (f b)) key := map_findLeafFrom _ _

theorem map_getValue :
    (ih.map f).getValue cmp (f key) = ih.getValue (fun a b => cmp (f a) (f b)) key := by
  simp only [getValue, map_findLeafPage, bind_map_left, IxNodeHandle.map_leafLookup]

theorem map_maintainChild (p : ℤ) (i : ℕ) : (ih.map f).maintainChild p i = map f <$> ih.maintainChild p i := by
  unfold maintainChild
  rw [map_fetchNode, bind_map_left, map_bind]
  refine bind_congr fun node => ?_
  have hleaf : (node.map f).isLeaf = node.isLeaf := rfl
  rw [hleaf]
  split
  · rfl
  · rw [map_bind]
    exact bind_congr fun _ => map_updateNode fun _ => rfl

theorem map_splitLeaf (node newNode : IxNodeHandle K) :
    (ih.map f).splitLeaf (node.map f) (newNode.map f) = map f <$> ih.splitLeaf node newNode := by
  have hpairs : (newNode.map f).insertPairs ih.fileHdr 0 (fun i => f (node.keys ((node.numKey + 1) / 2 + i)))
      (fun i => node.rids ((node.numKey + 1) / 2 + i)) (node.numKey - (node.numKey + 1) / 2) = _ :=
    IxNodeHandle.map_insertPairs 0 (fun i => node.keys ((node.numKey + 1) / 2 + i)) _ _
  unfold splitLeaf
  dsimp only
  rw [map_bind]
  refine bind_congr fun _ => ?_
  change (newNode.map f).insertPairs ih.fileHdr 0 (fun i => f (node.keys ((node.numKey + 1) / 2 + i)))
      (fun i => node.rids ((node.numKey + 1) / 2 + i)) (node.numKey - (node.numKey + 1) / 2) >>= _ = _
  rw [hpairs, bind_map_left, map_bind]
  refine bind_congr fun right => ?_
  -- the two halves, and then the links of the leaves
  obtain ⟨right', hright⟩ : ∃ right' : IxNodeHandle K,
      right' = { right with prevLeaf := node.pageNo, nextLeaf := node.nextLeaf } := ⟨_, rfl⟩
  obtain ⟨left, hleft⟩ : ∃ left : IxNodeHandle K, left = { node with numKey := (node.numKey + 1) / 2 } := ⟨_, rfl⟩
  have hwrites : ((ih.map f).writeNode (right'.map f)).writeNode (left.map f) =
      ((ih.writeNode right').writeNode left).map f := by
    rw [map_writeNode, map_writeNode]
  have hlink : ∀ ih : IxIndexHandle K,
      ((ih.map f).updateNode node.pageNo fun node => { node with nextLeaf := right.pageNo }) =
        map f <$> ih.updateNode node.pageNo fun node => { node with nextLeaf := right.pageNo } := by
    intro ih
    exact map_updateNode fun _ => rfl
  have hnext : ((((ih.writeNode right').writeNode left).map f).updateNode node.nextLeaf fun next =>
        { next with prevLeaf := right.pageNo }) =
      map f <$> ((ih.writeNode right').writeNode left).updateNode node.nextLeaf fun next =>
        { next with prevLeaf := right.pageNo } := map_updateNode fun _ => rfl
  rw [hleft, hright] at hwrites hnext
  change (if node.nextLeaf ≠ ixNoPage then _ else _) = _
  split
  · change (((ih.map f).writeNode _).writeNode _).updateNode node.nextLeaf _ >>= _ = _
    refine (congrArg (· >>= _) ((congrArg (fun ih => updateNode ih node.nextLeaf _) hwrites).trans hnext)).trans ?_
    rw [bind_map_left, map_bind]
    exact bind_congr fun ih => hlink ih
  · change ((((ih.map f).writeNode _).writeNode _).setLastLeaf right.pageNo).updateNode node.pageNo _ = _
    refine (congrArg (fun ih => (setLastLeaf ih right.pageNo).updateNode node.pageNo _) hwrites).trans ?_
    exact hlink (setLastLeaf _ right.pageNo)

theorem map_foldlM_maintainChild (l : List ℕ) : l.foldlM (fun ih i => maintainChild ih p i) (ih.map f) =
    map f <$> l.foldlM (fun ih i => maintainChild ih p i) ih := by
  induction l generalizing ih with
  | nil => rfl
  | cons i l hrec =>
    rw [List.foldlM_cons, List.foldlM_cons, map_maintainChild, bind_map_left, map_bind]
    exact bind_congr fun ih => hrec

theorem map_splitInternal (node newNode : IxNodeHandle K) :
    (ih.map f).splitInternal (node.map f) (newNode.map f) = map f <$> ih.splitInternal node newNode := by
  have hmap : upperHalf (node.map f) (newNode.map f) = (upperHalf node newNode).map f := by
    simp only [upperHalf, IxNodeHandle.map, apply_ite f]
    rfl
  have hwrites : ((ih.map f).writeNode ((upperHalf node newNode).map f)).writeNode
        { node.map f with numKey := node.numKey / 2 } =
      ((ih.writeNode (upperHalf node newNode)).writeNode { node with numKey := node.numKey / 2 }).map f := by
    rw [map_writeNode]
    exact map_writeNode { node with numKey := node.numKey / 2 }
  rw [splitInternal_bind, splitInternal_bind, hmap, map_bind]
  refine bind_congr fun _ => ?_
  exact (congrArg (fun ih => List.foldlM (fun ih i => maintainChild ih newNode.pageNo i) ih _) hwrites).trans
    (map_foldlM_maintainChild _)

section
variable [Inhabited K] [Inhabited L] (hdefault : f default = default)

include hdefault

theorem map_emptyNode (p : ℤ) : (emptyNode p : IxNodeHandle L) = (emptyNode p : IxNodeHandle K).map f := by
  simp only [emptyNode, IxNodeHandle.map, hdefault]

theorem map_createNode : (ih.map f).createNode = (ih.createNode.1, ih.createNode.2.map f) := by
  have hwrite : (ih.map f).writeNode (emptyNode ih.fd2pageno) = (ih.writeNode (emptyNode ih.fd2pageno)).map f := by
    rw [map_emptyNode hdefault, map_writeNode]
  unfold createNode
  change (ih.fd2pageno, ({ (ih.map f).writeNode (emptyNode ih.fd2pageno) with
    fileHdr := _, fd2pageno := _ } : IxIndexHandle L)) = _
  rw [hwrite]
  rfl

theorem map_split (p : ℤ) : (ih.map f).split p = (fun r => (r.1, r.2.map f)) <$> ih.split p := by
  unfold split
  rw [map_createNode hdefault]
  dsimp only
  rw [map_fetchNode, bind_map_left, map_bind]
  refine bind_congr fun node => ?_
  rw [map_fetchNode, bind_map_left, map_bind]
  refine bind_congr fun newNode => ?_
  obtain ⟨child, hchild⟩ : ∃ child : IxNodeHandle K,
      child = { newNode with isLeaf := node.isLeaf, numKey := 0, parent := node.parent } := ⟨_, rfl⟩
  have hleaf : (ih.createNode.2.map f).splitLeaf (node.map f) (child.map f) = _ := map_splitLeaf node child
  have hinternal : (ih.createNode.2.map f).splitInternal (node.map f) (child.map f) = _ := map_splitInternal node child
  rw [hchild] at hleaf hinternal
  change (if node.isLeaf then _ else _) = _
  split
  · refine (congrArg (fun x => x >>= fun ih' => pure (ih.createNode.1, ih')) hleaf).trans ?_
    rw [bind_map_left, map_bind]
    rfl
  · refine (congrArg (fun x => x >>= fun ih' => pure (ih.createNode.1, ih')) hinternal).trans ?_
    rw [bind_map_left, map_bind]
    rfl

theorem map_growRoot (key : K) (p q : ℤ) : (ih.map f).growRoot p (f key) q = map f <$> ih.growRoot p key q := by
  have hupdate : (ih.createNode.2.map f).updateNode ih.fd2pageno (newRoot p (f key) q) =
      map f <$> ih.createNode.2.updateNode ih.fd2pageno (newRoot p key q) := by
    refine map_updateNode fun node => ?_
    have hkeys : Function.update (node.map f).keys 0 (f key) = fun i => f (Function.update node.keys 0 key i) :=
      (Function.comp_update f node.keys 0 key).symm
    unfold newRoot
    rw [hkeys]
    rfl
  have hparent : ∀ (ih : IxIndexHandle K) (p q : ℤ), ((ih.map f).updateNode p fun node => { node with parent := q }) =
      map f <$> ih.updateNode p fun node => { node with parent := q } := fun ih p q => map_updateNode fun _ => rfl
  rw [growRoot_bind, growRoot_bind, map_createNode hdefault]
  dsimp only
  rw [show (ih.map f).fd2pageno = ih.fd2pageno from rfl, hupdate, bind_map_left, map_bind]
  refine bind_congr fun ih₁ => ?_
  rw [hparent, bind_map_left, map_bind]
  refine bind_congr fun ih₂ => ?_
  rw [hparent, bind_map_left, map_bind]
  rfl

theorem map_insertIntoParent (fuel : ℕ) (p : ℤ) (key : K) (q : ℤ) : insertIntoParent cmp fuel (ih.map f) p (f key) q =
    map f <$> insertIntoParent (fun a b => cmp (f a) (f b)) fuel ih p key q := by
  induction fuel generalizing ih p key q with
  | zero => rfl
  | succ fuel hrec =>
    unfold insertIntoParent
    rw [map_fetchNode, bind_map_left, map_bind]
    refine bind_congr fun old => ?_
    change (if old.isRootPage then _ else _) = _
    split
    · exact map_growRoot hdefault key p q
    · change (ih.map f).fetchNode old.parent >>= _ = _
      rw [map_fetchNode, bind_map_left, map_bind]
      refine bind_congr fun parent => ?_
      rw [IxNodeHandle.map_lowerBound]
      change (parent.map f).insertPair ih.fileHdr _ (f key) q >>= _ = _
      rw [IxNodeHandle.map_insertPair, bind_map_left, map_bind]
      refine bind_congr fun parent' => ?_
      dsimp only
      rw [map_writeNode]
      change (if parent'.numKey = ih.fileHdr.maxSize then _ else _) =
        map f <$> if parent'.numKey = ih.fileHdr.maxSize then _ else _
      split
      · change ((ih.writeNode parent').map f).split parent'.pageNo >>= _ = _
        rw [map_split hdefault, bind_map_left, map_bind]
        exact bind_congr fun r => hrec _ _ _
      · rfl

theorem map_splitFullLeaf (p : ℤ) : (ih.map f).splitFullLeaf cmp p =
    map f <$> ih.splitFullLeaf (fun a b => cmp (f a) (f b)) p := by
  unfold splitFullLeaf
  rw [map_split hdefault, bind_map_left, map_bind]
  refine bind_congr fun r => ?_
  dsimp only
  rw [map_fetchNode, bind_map_left, map_bind]
  refine bind_congr fun newLeaf => ?_
  change insertIntoParent cmp r.2.fuel (r.2.map f) p (f (newLeaf.keys 0)) r.1 >>= _ = _
  rw [map_insertIntoParent hdefault, bind_map_left, map_bind]
  refine bind_congr fun ih' => ?_
  change pure (if p = ih'.fileHdr.lastLeaf then _ else _) = _
  split
  · rfl
  · rfl

theorem map_insertEntry (key : K) (value : Rid) : (ih.map f).insertEntry cmp (f key) value =
    (fun r => (r.1, r.2.map f)) <$> ih.insertEntry (fun a b => cmp (f a) (f b)) key value := by
  -- what follows the check for an equal key
  have hrest : (do
      let leaf ← (ih.map f).findLeafPage cmp (f key)
      let leaf ← leaf.insert cmp ih.fileHdr (f key) value
      if leaf.numKey = ih.fileHdr.maxSize then do
        let ih ← ((ih.map f).writeNode leaf).splitFullLeaf cmp leaf.pageNo
        pure (leaf.pageNo, ih)
      else pure (leaf.pageNo, (ih.map f).writeNode leaf)) = (fun r => (r.1, r.2.map f)) <$> (do
      let leaf ← ih.findLeafPage (fun a b => cmp (f a) (f b)) key
      let leaf ← leaf.insert (fun a b => cmp (f a) (f b)) ih.fileHdr key value
      if leaf.numKey = ih.fileHdr.maxSize then do
        let ih ← (ih.writeNode leaf).splitFullLeaf (fun a b => cmp (f a) (f b)) leaf.pageNo
        pure (leaf.pageNo, ih)
      else pure (leaf.pageNo, ih.writeNode leaf)) := by
    rw [map_findLeafPage, bind_map_left, map_bind]
    refine bind_congr fun leaf => ?_
    rw [IxNodeHandle.map_insert, bind_map_left, map_bind]
    refine bind_congr fun leaf' => ?_
    rw [map_writeNode]
    change (if leaf'.numKey = ih.fileHdr.maxSize then _ else _) = _
    split
    · rw [map_splitFullLeaf hdefault, bind_map_left, map_bind]
      rfl
    · rfl
  unfold insertEntry
  rw [map_getValue]
  change (if ih.unique then _ else _) = _ <$> if ih.unique then _ else _
  split
  · rw [map_bind]
    refine bind_congr fun found => ?_
    cases found with
    | some rid => rfl
    | none => exact hrest
  · exact hrest

theorem map_insertEntries (entries : List (K × Rid)) :
    (ih.map f).insertEntries cmp (entries.map fun e => (f e.1, e.2)) =
      map f <$> ih.insertEntries (fun a b => cmp (f a) (f b)) entries := by
  induction entries generalizing ih with
  | nil => rfl
  | cons e entries hrec =>
    unfold insertEntries
    rw [List.map_cons, List.foldlM_cons, List.foldlM_cons, map_insertEntry hdefault, ← comp_map, bind_map_left, map_bind,
      bind_map_left]
    exact bind_congr fun r => hrec

theorem map_freshIndex (btreeOrder colTotLen : ℕ) (unique : Bool) :
    (freshIndex btreeOrder colTotLen unique : IxIndexHandle L) =
      (freshIndex btreeOrder colTotLen unique : IxIndexHandle K).map f := by
  have hpages : ∀ p, (freshIndex btreeOrder colTotLen unique : IxIndexHandle L).pages p =
      ((freshIndex btreeOrder colTotLen unique : IxIndexHandle K).pages p).map (·.map f) := by
    intro p
    unfold freshIndex
    dsimp only
    rw [map_emptyNode hdefault]
    split_ifs <;> rfl
  unfold map
  rw [← funext hpages]
  rfl

end
end IxIndexHandle
end Rmdb
