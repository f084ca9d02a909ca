import Rmdb.Index.Handle

/-! Positions in the leaf chain and the scans between two of them. -/
namespace Rmdb

structure Iid where
  pageNo : ℤ
  slotNo : ℕ
deriving DecidableEq, Repr

namespace IxIndexHandle

variable {K : Type} [Inhabited K] (cmp : K → K → Ordering) (ih : IxIndexHandle K)

/-- A position past the end of a leaf moves on to the given slot of the next leaf. -/
def iidFrom (leaf : IxNodeHandle K) (slotNo nextSlotNo : ℕ) : Iid :=
  if leaf.numKey ≤ slotNo ∧ leaf.nextLeaf ≠ ixNoPage then ⟨leaf.nextLeaf, nextSlotNo⟩
  else ⟨leaf.pageNo, slotNo⟩

def lowerBound (key : K) : Except IxError Iid := do
  let leaf ← ih.findLeafPage cmp key
  return iidFrom leaf (leaf.lowerBound cmp key) 0

/-- Like `lowerBound`, except that it lands on the second slot of the next leaf. -/
def upperBound (key : K) : Except IxError Iid := do
  let leaf ← ih.findLeafPage cmp key
  return iidFrom leaf (leaf.upperBound cmp key) 1

def leafEnd : Except IxError Iid :=
  if ih.fileHdr.rootPage = ixNoPage ∨ ih.fileHdr.lastLeaf = ixNoPage then return ⟨ixNoPage, 0⟩
  else do
    let leaf ← ih.fetchNode ih.fileHdr.lastLeaf
    return ⟨ih.fileHdr.lastLeaf, leaf.numKey⟩

def leafBegin : Except IxError Iid :=
  if ih.fileHdr.rootPage = ixNoPage ∨ ih.fileHdr.firstLeaf = ixNoPage then ih.leafEnd
  else return ⟨ih.fileHdr.firstLeaf, 0⟩

def getRid (iid : Iid) : Except IxError Rid := do
  let node ← ih.fetchNode iid.pageNo
  if node.numKey ≤ iid.slotNo then throw .indexEntryNotFound
  return node.rids iid.slotNo

/-- `IxScan::next` for a scan that ends at `stop`. -/
def scanNext (iid stop : Iid) : Except IxError Iid := do
  if iid = stop then return iid
  let node ← ih.fetchNode iid.pageNo
  assertThat (node.isLeaf = true)
  let iid := { iid with slotNo := iid.slotNo + 1 }
  if iid = stop then return iid
  if iid.slotNo = node.numKey then
    if node.nextLeaf ≠ ixNoPage ∧ node.nextLeaf ≠ ixLeafHeaderPage then return ⟨node.nextLeaf, 0⟩
    else return stop
  else return iid

/-- The record identifiers that a scan from `iid` to `stop` goes through. -/
def scanRids (stop : Iid) : ℕ → Iid → Except IxError (List Rid)
  | 0, _ => throw .unfinished
  | fuel + 1, iid =>
    if iid = stop then return []
    else do
      let rid ← ih.getRid iid
      let next ← ih.scanNext iid stop
      return rid :: (← scanRids stop fuel next)

/-- The bounds of an index scan: a missing key means the end of the leaf chain. -/
def scanBounds (lower upper : Option K) : Except IxError (Iid × Iid) := do
  let start ← match lower with
    | none => ih.leafBegin
    | some key => ih.lowerBound cmp key
  let stop ← match upper with
    | none => ih.leafEnd
    | some key => ih.upperBound cmp key
  return (start, stop)

/-- The two ends of a scan between bounds. -/
def createScan (lower upper : Option K) (lowerInclusive upperInclusive : Bool) : Except IxError (Iid × Iid) := do
  let start ← match lower with
    | none => ih.leafBegin
    | some key => if lowerInclusive then ih.lowerBound cmp key else ih.upperBound cmp key
  let stop ← match upper with
    | none => ih.leafEnd
    | some key => if upperInclusive then ih.upperBound cmp key else ih.lowerBound cmp key
  return (start, stop)

/-- No scan that ends is longer: it visits every slot of every page at most once. -/
def scanFuel : ℕ := (ih.fd2pageno.toNat + 1) * (ih.fileHdr.maxSize + 1)

end IxIndexHandle
end Rmdb
