import Rmdb.Common.Defs
import Rmdb.Lib.SlotArray

/-! One page of a B+tree. `keys` and `rids` are the two arrays behind the page header; an
internal node with `numKey` keys uses the page numbers of its first `numKey + 1` rids. The
slots past the live ones keep their old contents, so both arrays are total functions. -/
namespace Rmdb

def ixNoPage : ℤ := -1
def ixLeafHeaderPage : ℤ := 1
def ixInitRootPage : ℤ := 2
def ixInitNumPages : ℤ := 3
def ixMaxColLen : ℕ := 512

/-- `sizeof(IxPageHdr)`, with the padding after `is_leaf`. -/
def ixPageHdrSize : ℕ := 24

def ridSize : ℕ := 8

inductive IxError where
  | assertion
  /-- A page number the file does not have. -/
  | noPage
  /-- A write behind the end of the page. -/
  | outOfPage
  | useAfterFree
  | unfinished
  | invalidColLength
  | uniqueIndexViolation
  | indexEntryNotFound
  | childNotFound
deriving DecidableEq, Repr

def assertThat (p : Prop) [Decidable p] : Except IxError Unit :=
  if p then .ok () else .error .assertion

theorem assertThat_of {p : Prop} [Decidable p] (h : p) : assertThat p = .ok () := if_pos h

structure IxFileHdr where
  numPages : ℤ
  rootPage : ℤ
  btreeOrder : ℕ
  colTotLen : ℕ
  firstLeaf : ℤ
  lastLeaf : ℤ

namespace IxFileHdr

def maxSize (hdr : IxFileHdr) : ℕ := hdr.btreeOrder + 1
def minSize (hdr : IxFileHdr) : ℕ := hdr.maxSize / 2
def keysSize (hdr : IxFileHdr) : ℕ := (hdr.btreeOrder + 1) * hdr.colTotLen

end IxFileHdr

structure IxNodeHandle (K : Type) where
  pageNo : ℤ
  parent : ℤ
  numKey : ℕ
  isLeaf : Bool
  prevLeaf : ℤ
  nextLeaf : ℤ
  keys : ℕ → K
  rids : ℕ → Rid

namespace IxNodeHandle

variable {K : Type} (cmp : K → K → Ordering) (hdr : IxFileHdr) (node : IxNodeHandle K)

def valueAt (i : ℕ) : ℤ := (node.rids i).pageNo

/-- The live entries of a node. -/
def entries : List (K × Rid) := SlotArray.toList (fun i => (node.keys i, node.rids i)) node.numKey

def isRootPage : Prop := node.parent = ixNoPage

instance : Decidable node.isRootPage := inferInstanceAs (Decidable (_ = _))

/-- The first slot whose key is `>= target`. -/
def lowerBound (target : K) : ℕ := SlotArray.lowerBound cmp node.keys node.numKey target

/-- The first slot whose key is `> target`. -/
def upperBound (target : K) : ℕ := SlotArray.upperBound cmp node.keys node.numKey target

def leafLookup (key : K) : Except IxError (Option Rid) := do
  assertThat (node.isLeaf = true)
  let pos := node.lowerBound cmp key
  if pos = node.numKey then return none
  if cmp key (node.keys pos) ≠ .eq then return none
  return some (node.rids pos)

def internalLookup (key : K) : Except IxError ℤ := do
  assertThat (node.isLeaf = false)
  return node.valueAt (node.lowerBound cmp key)

/-- Insert the first `n` pairs of `(key, rid)` at `pos`. -/
def insertPairs (pos : ℕ) (key : ℕ → K) (rid : ℕ → Rid) (n : ℕ) :
    Except IxError (IxNodeHandle K) := do
  assertThat (pos ≤ node.numKey)
  assertThat (pos < node.numKey → node.numKey - 1 + n < hdr.maxSize)
  assertThat (0 < n → pos + n - 1 < hdr.maxSize)
  return { node with
    keys := SlotArray.insertMany node.keys node.numKey pos key n
    rids := SlotArray.insertMany node.rids node.numKey pos rid n
    numKey := node.numKey + n }

/-- A key that is present already is left alone. -/
def insert (key : K) (value : Rid) : Except IxError (IxNodeHandle K) :=
  let pos := node.lowerBound cmp key
  if pos < node.numKey ∧ cmp (node.keys pos) key = .eq then return node
  else node.insertPairs hdr pos (fun _ => key) (fun _ => value) 1

def erasePair (pos : ℕ) : Except IxError (IxNodeHandle K) := do
  assertThat (pos < node.numKey)
  assertThat (pos < node.numKey - 1 → pos + 1 < hdr.maxSize ∧ node.numKey - pos - 1 ≤ hdr.maxSize)
  return { node with
    keys := SlotArray.eraseAt node.keys node.numKey pos
    rids := SlotArray.eraseAt node.rids node.numKey pos
    numKey := node.numKey - 1 }

def remove (key : K) : Except IxError (IxNodeHandle K) :=
  let pos := node.lowerBound cmp key
  if pos < node.numKey ∧ cmp (node.keys pos) key = .eq then node.erasePair hdr pos
  else return node

/-- Insert a key and the child on its right into an internal node. Moving the children may
reach past the slots that `maxSize` allows for; past the page it is an error. -/
def insertPair (keyIdx : ℕ) (key : K) (childPageNo : ℤ) : Except IxError (IxNodeHandle K) := do
  assertThat (node.isLeaf = false)
  assertThat (keyIdx ≤ node.numKey)
  assertThat (keyIdx + 2 < hdr.maxSize)
  if pageSize < ixPageHdrSize + hdr.keysSize + (node.numKey + 2) * ridSize then
    throw .outOfPage
  let child := { node.rids (keyIdx + 1) with pageNo := childPageNo }
  return { node with
    keys := SlotArray.insertAt node.keys node.numKey keyIdx key
    rids := SlotArray.insertAt node.rids (node.numKey + 1) (keyIdx + 1) child
    numKey := node.numKey + 1 }

/-- The index of a child; all `numKey + 1` children are searched. -/
def findChild (childPageNo : ℤ) : Except IxError ℕ :=
  match (List.range (node.numKey + 1)).find? fun i => node.valueAt i = childPageNo with
  | some i => return i
  | none => throw .childNotFound

/-! What the two array operations do when their assertions hold. -/

section
variable {hdr node} {pos : ℕ}

theorem insertPairs_eq {key : ℕ → K} {rid : ℕ → Rid} {n : ℕ} (hpos : pos ≤ node.numKey)
    (hn : node.numKey + n ≤ hdr.maxSize) :
    node.insertPairs hdr pos key rid n = .ok { node with
      keys := SlotArray.insertMany node.keys node.numKey pos key n
      rids := SlotArray.insertMany node.rids node.numKey pos rid n
      numKey := node.numKey + n } := by
  have h₁ : pos < node.numKey → node.numKey - 1 + n < hdr.maxSize := by omega
  have h₂ : 0 < n → pos + n - 1 < hdr.maxSize := by omega
  simp only [insertPairs, assertThat_of hpos, assertThat_of h₁, assertThat_of h₂]
  rfl

theorem insertPairs_one {key : K} {value : Rid} (hpos : pos ≤ node.numKey)
    (hn : node.numKey < hdr.maxSize) :
    node.insertPairs hdr pos (fun _ => key) (fun _ => value) 1 = .ok { node with
      keys := SlotArray.insertAt node.keys node.numKey pos key
      rids := SlotArray.insertAt node.rids node.numKey pos value
      numKey := node.numKey + 1 } := by
  rw [insertPairs_eq hpos (Nat.succ_le_of_lt hn), SlotArray.insertMany_one, SlotArray.insertMany_one]

theorem erasePair_eq (hpos : pos < node.numKey) (hn : node.numKey ≤ hdr.maxSize) :
    node.erasePair hdr pos = .ok { node with
      keys := SlotArray.eraseAt node.keys node.numKey pos
      rids := SlotArray.eraseAt node.rids node.numKey pos
      numKey := node.numKey - 1 } := by
  have h : pos < node.numKey - 1 →
      pos + 1 < hdr.maxSize ∧ node.numKey - pos - 1 ≤ hdr.maxSize := by omega
  simp only [erasePair, assertThat_of hpos, assertThat_of h]
  rfl

end
end IxNodeHandle
end Rmdb
