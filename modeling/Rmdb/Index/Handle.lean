import Rmdb.Index.Compare
import Rmdb.Index.Node

/-! The B+tree itself: lookup and insertion with the splits it causes. A node is passed
around as a page number and read again from the store before each use, since the handles of
the source all point into the same pages. -/
namespace Rmdb

structure IxIndexHandle (K : Type) where
  fileHdr : IxFileHdr
  pages : ℤ → Option (IxNodeHandle K)
  /-- The number the next new page will get. -/
  fd2pageno : ℤ
  unique : Bool

namespace IxIndexHandle

variable {K : Type} [Inhabited K]

def emptyNode (pageNo : ℤ) : IxNodeHandle K where
  pageNo := pageNo
  parent := ixNoPage
  numKey := 0
  isLeaf := false
  prevLeaf := ixNoPage
  nextLeaf := ixNoPage
  keys := fun _ => default
  rids := fun _ => ⟨0, 0⟩

/-- The pages that `create_index` writes for a given order: the leaf header and an empty
leaf as the root. -/
def freshIndex (btreeOrder colTotLen : ℕ) (unique : Bool) : IxIndexHandle K where
  fileHdr :=
    { numPages := ixInitNumPages, rootPage := ixInitRootPage, btreeOrder, colTotLen
      firstLeaf := ixInitRootPage, lastLeaf := ixInitRootPage }
  pages p :=
    if p = ixLeafHeaderPage then
      some { emptyNode p with isLeaf := true, prevLeaf := ixInitRootPage, nextLeaf := ixInitRootPage }
    else if p = ixInitRootPage then
      some { emptyNode p with
        isLeaf := true, prevLeaf := ixLeafHeaderPage, nextLeaf := ixLeafHeaderPage }
    else none
  fd2pageno := ixInitNumPages
  unique

def btreeOrderOf (colTotLen : ℕ) : ℕ := (pageSize - ixPageHdrSize) / (colTotLen + ridSize) - 1

def createIndex (colTotLen : ℕ) (unique : Bool) : Except IxError (IxIndexHandle K) := do
  if ixMaxColLen < colTotLen then throw .invalidColLength
  assertThat (2 < btreeOrderOf colTotLen)
  return freshIndex (btreeOrderOf colTotLen) colTotLen unique

variable (cmp : K → K → Ordering) (ih : IxIndexHandle K)

/-- No walk that visits every page at most once is longer. -/
def fuel : ℕ := ih.fd2pageno.toNat + 1

def fetchNode (pageNo : ℤ) : Except IxError (IxNodeHandle K) :=
  match ih.pages pageNo with
  | some node => .ok node
  | none => .error .noPage

def writeNode (node : IxNodeHandle K) : IxIndexHandle K :=
  { ih with pages := Function.update ih.pages node.pageNo (some node) }

def updateNode (pageNo : ℤ) (f : IxNodeHandle K → IxNodeHandle K) :
    Except IxError (IxIndexHandle K) := do
  let node ← ih.fetchNode pageNo
  return ih.writeNode (f node)

def setRootPage (pageNo : ℤ) : IxIndexHandle K :=
  { ih with fileHdr := { ih.fileHdr with rootPage := pageNo } }

def setLastLeaf (pageNo : ℤ) : IxIndexHandle K :=
  { ih with fileHdr := { ih.fileHdr with lastLeaf := pageNo } }

def createNode : ℤ × IxIndexHandle K :=
  (ih.fd2pageno,
    { ih.writeNode (emptyNode ih.fd2pageno) with
      fileHdr := { ih.fileHdr with numPages := ih.fileHdr.numPages + 1 }
      fd2pageno := ih.fd2pageno + 1 })

def findLeafFrom (key : K) : ℕ → ℤ → Except IxError (IxNodeHandle K)
  | 0, _ => throw .unfinished
  | fuel + 1, pageNo => do
    let node ← ih.fetchNode pageNo
    if node.isLeaf then return node
    let child ← node.internalLookup cmp key
    findLeafFrom key fuel child

/-- Walk from the root to the leaf that `key` is routed to. -/
def findLeafPage (key : K) : Except IxError (IxNodeHandle K) :=
  ih.findLeafFrom cmp key ih.fuel ih.fileHdr.rootPage

def getValue (key : K) : Except IxError (Option Rid) := do
  let leaf ← ih.findLeafPage cmp key
  leaf.leafLookup cmp key

def maintainChild (pageNo : ℤ) (childIdx : ℕ) : Except IxError (IxIndexHandle K) := do
  let node ← ih.fetchNode pageNo
  if node.isLeaf then return ih
  assertThat (childIdx < ih.fileHdr.maxSize)
  ih.updateNode (node.valueAt childIdx) fun child => { child with parent := pageNo }

/-- The right half of a full leaf goes to the new page; the page after it learns of its new
predecessor. -/
def splitLeaf (node newNode : IxNodeHandle K) : Except IxError (IxIndexHandle K) := do
  let splitPoint := (node.numKey + 1) / 2
  assertThat (splitPoint < ih.fileHdr.maxSize)
  let newNode ← newNode.insertPairs ih.fileHdr 0 (fun i => node.keys (splitPoint + i))
    (fun i => node.rids (splitPoint + i)) (node.numKey - splitPoint)
  let newNode := { newNode with prevLeaf := node.pageNo, nextLeaf := node.nextLeaf }
  let ih := (ih.writeNode newNode).writeNode { node with numKey := splitPoint }
  let ih ←
    if node.nextLeaf ≠ ixNoPage then
      ih.updateNode node.nextLeaf fun next => { next with prevLeaf := newNode.pageNo }
    else pure (ih.setLastLeaf newNode.pageNo)
  ih.updateNode node.pageNo fun node => { node with nextLeaf := newNode.pageNo }

/-- The middle key of an internal node moves up and stays in neither half. -/
def splitInternal (node newNode : IxNodeHandle K) : Except IxError (IxIndexHandle K) := do
  let middleIdx := node.numKey / 2
  let keyMoveCount := node.numKey - middleIdx - 1
  let ridMoveCount := keyMoveCount + 1
  assertThat (middleIdx + 1 < ih.fileHdr.maxSize)
  let newNode := { newNode with
    keys := fun i => if i < keyMoveCount then node.keys (middleIdx + 1 + i) else newNode.keys i
    rids := fun i => if i < ridMoveCount then node.rids (middleIdx + 1 + i) else newNode.rids i
    numKey := keyMoveCount }
  let ih := (ih.writeNode newNode).writeNode { node with numKey := middleIdx }
  (List.range ridMoveCount).foldlM (fun ih i => ih.maintainChild newNode.pageNo i) ih

/-- Split a node and return the page of its new right sibling. -/
def split (pageNo : ℤ) : Except IxError (ℤ × IxIndexHandle K) := do
  let (newPageNo, ih) := ih.createNode
  let node ← ih.fetchNode pageNo
  let newNode ← ih.fetchNode newPageNo
  let newNode := { newNode with isLeaf := node.isLeaf, numKey := 0, parent := node.parent }
  let ih ← if node.isLeaf then ih.splitLeaf node newNode else ih.splitInternal node newNode
  return (newPageNo, ih)

/-- A root with one key between the two halves of the old root. -/
def growRoot (oldNode : ℤ) (key : K) (newNode : ℤ) : Except IxError (IxIndexHandle K) := do
  let (rootPageNo, ih) := ih.createNode
  let ih ← ih.updateNode rootPageNo fun root =>
    { root with
      isLeaf := false
      parent := ixNoPage
      keys := Function.update root.keys 0 key
      rids := Function.update (Function.update root.rids 0 { root.rids 0 with pageNo := oldNode }) 1
        { root.rids 1 with pageNo := newNode }
      numKey := 1 }
  let ih ← ih.updateNode oldNode fun node => { node with parent := rootPageNo }
  let ih ← ih.updateNode newNode fun node => { node with parent := rootPageNo }
  return ih.setRootPage rootPageNo

def insertIntoParent : ℕ → IxIndexHandle K → ℤ → K → ℤ → Except IxError (IxIndexHandle K)
  | 0, _, _, _, _ => throw .unfinished
  | fuel + 1, ih, oldNode, key, newNode => do
    let old ← ih.fetchNode oldNode
    if old.isRootPage then ih.growRoot oldNode key newNode
    else
      let parent ← ih.fetchNode old.parent
      let parent ← parent.insertPair ih.fileHdr (parent.lowerBound cmp key) key newNode
      let ih := ih.writeNode parent
      if parent.numKey = ih.fileHdr.maxSize then
        let (newParent, ih) ← ih.split parent.pageNo
        insertIntoParent fuel ih parent.pageNo (parent.keys (parent.numKey / 2)) newParent
      else return ih

/-- What follows the insertion into a leaf once the leaf is full. -/
def splitFullLeaf (leafPageNo : ℤ) : Except IxError (IxIndexHandle K) := do
  let (newLeafPageNo, ih) ← ih.split leafPageNo
  let newLeaf ← ih.fetchNode newLeafPageNo
  let ih ← insertIntoParent cmp ih.fuel ih leafPageNo (newLeaf.keys 0) newLeafPageNo
  return if leafPageNo = ih.fileHdr.lastLeaf then ih.setLastLeaf newLeafPageNo else ih

/-- Returns the page number of the leaf together with the new index. -/
def insertEntry (key : K) (value : Rid) : Except IxError (ℤ × IxIndexHandle K) := do
  if ih.unique then
    if (← ih.getValue cmp key).isSome then throw .uniqueIndexViolation
  let leaf ← ih.findLeafPage cmp key
  let leaf ← leaf.insert cmp ih.fileHdr key value
  let ih := ih.writeNode leaf
  let ih ← if leaf.numKey = ih.fileHdr.maxSize then ih.splitFullLeaf cmp leaf.pageNo else pure ih
  return (leaf.pageNo, ih)

end IxIndexHandle
end Rmdb
