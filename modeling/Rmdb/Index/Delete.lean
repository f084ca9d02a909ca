import Rmdb.Index.Handle

/-! Deletion from the B+tree and the underflow handling behind it. -/
namespace Rmdb
namespace IxIndexHandle

variable {K : Type} [Inhabited K] (cmp : K → K → Ordering) (ih : IxIndexHandle K)

/-- A root without keys leaves the index without a root page. -/
def adjustRoot (oldRoot : ℤ) : Except IxError (Bool × IxIndexHandle K) := do
  let root ← ih.fetchNode oldRoot
  if root.isLeaf = false ∧ root.numKey = 1 then
    let ih ← ih.updateNode (root.valueAt 0) fun child => { child with parent := ixNoPage }
    return (true, ih.setRootPage (root.valueAt 0))
  else if root.isLeaf = true ∧ root.numKey = 0 then
    return (true, ih.setRootPage ixNoPage)
  else return (false, ih)

/-- Move one pair from the neighbor into the node. The parent's key is written at the index
of the right one of the two children. -/
def redistribute (neighbor node parent : ℤ) (index : ℕ) : Except IxError (IxIndexHandle K) := do
  let hdr := ih.fileHdr
  let nodeHandle ← ih.fetchNode node
  let neighborHandle ← ih.fetchNode neighbor
  assertThat (0 < neighborHandle.numKey)
  let fromIdx := if 0 < index then neighborHandle.numKey - 1 else 0
  let toIdx := if 0 < index then 0 else nodeHandle.numKey
  let nodeHandle ← nodeHandle.insertPairs hdr toIdx (fun _ => neighborHandle.keys fromIdx)
    (fun _ => neighborHandle.rids fromIdx) 1
  let ih := ih.writeNode nodeHandle
  let neighborHandle ← (← ih.fetchNode neighbor).erasePair hdr fromIdx
  let ih := ih.writeNode neighborHandle
  let ih ← ih.updateNode parent fun parent => { parent with
    keys :=
      if 0 < index then Function.update parent.keys index (nodeHandle.keys 0)
      else Function.update parent.keys (index + 1) (neighborHandle.keys 0) }
  ih.maintainChild node toIdx

/-- The pairs that `coalesce` appends to the left internal node. -/
def appendChildren (left right : IxNodeHandle K) (parentKey : K) :
    Except IxError (IxNodeHandle K) := do
  let left ← left.insertPairs ih.fileHdr left.numKey (fun _ => parentKey)
    (fun _ => ⟨right.valueAt 0, 0⟩) 1
  (List.range (right.numKey - 1)).foldlM (fun left i =>
    left.insertPairs ih.fileHdr left.numKey (fun _ => right.keys (i + 1))
      (fun _ => ⟨right.valueAt (i + 1), 0⟩) 1) left

/-- The part of `coalesce` before the parent is looked at again. A leaf is only unlinked: its
pairs are not moved. -/
def mergeRight (left right parent : ℤ) (index : ℕ) : Except IxError (IxIndexHandle K) := do
  let rightHandle ← ih.fetchNode right
  let leftHandle ← ih.fetchNode left
  let parentHandle ← ih.fetchNode parent
  let ih ←
    if rightHandle.isLeaf then
      let ih := ih.writeNode { leftHandle with nextLeaf := rightHandle.nextLeaf }
      pure (if right = ih.fileHdr.lastLeaf then ih.setLastLeaf left else ih)
    else
      assertThat (index < ih.fileHdr.maxSize)
      let leftHandle ← ih.appendChildren leftHandle rightHandle (parentHandle.keys index)
      (List.range rightHandle.numKey).foldlM
        (fun ih i => ih.maintainChild left (leftHandle.numKey - rightHandle.numKey + i))
        (ih.writeNode leftHandle)
  let parentHandle ← (← ih.fetchNode parent).erasePair ih.fileHdr index
  return ih.writeNode parentHandle

/-- Returns whether the caller has to delete its leaf. With `index = 0` the two handles are
swapped and the caller's handle is freed under it. -/
def coalesceOrRedistribute : ℕ → IxIndexHandle K → ℤ → Except IxError (Bool × IxIndexHandle K)
  | 0, _, _ => throw .unfinished
  | fuel + 1, ih, node => do
    let nodeHandle ← ih.fetchNode node
    if nodeHandle.isRootPage then ih.adjustRoot node
    else if ih.fileHdr.minSize ≤ nodeHandle.numKey then return (false, ih)
    else
      let parent ← ih.fetchNode nodeHandle.parent
      let nodeIdx ← parent.findChild node
      let neighborIdx := if 0 < nodeIdx then nodeIdx - 1 else nodeIdx + 1
      assertThat (neighborIdx < ih.fileHdr.maxSize)
      let neighbor ← ih.fetchNode (parent.valueAt neighborIdx)
      if 2 * ih.fileHdr.minSize ≤ nodeHandle.numKey + neighbor.numKey then
        let ih ← ih.redistribute neighbor.pageNo node parent.pageNo nodeIdx
        return (false, ih)
      else if nodeIdx = 0 then throw .useAfterFree
      else
        let ih ← ih.mergeRight neighbor.pageNo node parent.pageNo nodeIdx
        let parent ← ih.fetchNode parent.pageNo
        if parent.numKey < ih.fileHdr.minSize then
          coalesceOrRedistribute fuel ih parent.pageNo
        else return (false, ih)

def eraseLeaf (leaf : IxNodeHandle K) : Except IxError (IxIndexHandle K) := do
  assertThat (leaf.isLeaf = true)
  let ih ← ih.updateNode leaf.prevLeaf fun prev => { prev with nextLeaf := leaf.nextLeaf }
  ih.updateNode leaf.nextLeaf fun next => { next with prevLeaf := leaf.prevLeaf }

def releaseNodeHandle : IxIndexHandle K :=
  { ih with fileHdr := { ih.fileHdr with numPages := ih.fileHdr.numPages - 1 } }

/-- What follows the removal of a pair from a leaf. Within a transaction the page is only
noted for later deletion. -/
def afterRemove (transaction : Bool) (leaf : ℤ) : Except IxError (IxIndexHandle K) := do
  let (shouldDelete, ih) ← coalesceOrRedistribute ih.fuel ih leaf
  if shouldDelete ∧ transaction = false then
    let ih ← ih.eraseLeaf (← ih.fetchNode leaf)
    return ih.releaseNodeHandle
  else return ih

def deleteEntry (transaction : Bool) (key : K) : Except IxError (Bool × IxIndexHandle K) := do
  let leaf ← ih.findLeafPage cmp key
  let removed ← leaf.remove cmp ih.fileHdr key
  let ih := ih.writeNode removed
  if removed.numKey < leaf.numKey then
    let ih ← ih.afterRemove transaction leaf.pageNo
    return (true, ih)
  else return (false, ih)

end IxIndexHandle
end Rmdb
