import Rmdb.Index.LeafChain
import Rmdb.Optimizer.Planner

/-! The sequential scan and the index scan with their conditions. -/
namespace Rmdb

/-- A table as a statement sees it: its occupied slots, and what reading a slot returns. -/
structure TableView where
  rids : List Rid
  getRecord : Rid → Option Bytes

/-- The slots among `rids` whose rows meet all conditions. -/
def TableView.select (view : TableView) (evalCond : Bytes → Condition → Except DbError Bool)
    (conds : List Condition) (rids : List Rid) : Except DbError (List Rid) :=
  rids.filterM fun rid =>
    match view.getRecord rid with
    | none => return false
    | some rec_ => conds.allM (evalCond rec_)

namespace SeqScanExecutor

def scan (tab : String) (tabMeta : TabMeta) (view : TableView) (conds : List Condition) :
    Except DbError (List Rid) :=
  view.select (evalCond (tabMeta.tableCols tab)) conds view.rids

end SeqScanExecutor

/-- The two keys of an index scan, column by column. A column that was never written holds whatever
was in the buffer. -/
structure ScanKeys where
  keyStart : ℕ → Option Bytes
  keyEnd : ℕ → Option Bytes
  lowerCol : ℕ
  upperCol : ℕ

namespace ScanKeys

def empty : ScanKeys := ⟨fun _ => none, fun _ => none, 0, 0⟩

def setLower (keys : ScanKeys) (i : ℕ) (raw : Bytes) : ScanKeys :=
  { keys with keyStart := Function.update keys.keyStart i (some raw), lowerCol := keys.lowerCol + 1 }

def setUpper (keys : ScanKeys) (i : ℕ) (raw : Bytes) : ScanKeys :=
  { keys with keyEnd := Function.update keys.keyEnd i (some raw), upperCol := keys.upperCol + 1 }

end ScanKeys

namespace ColMeta

/-- The least value of a column; `-FLT_MAX` for a float. -/
def minBytes (col : ColMeta) : Bytes :=
  match col.type with
  | .int => wordBytes 0x80000000
  | .float => wordBytes 0xFF7FFFFF
  | .string => List.replicate col.len 0

/-- What the scan takes for the greatest value of a column: `INT32_MAX`, `FLT_MAX`, and `CHAR_MAX` for
each byte of a string. -/
def maxBytes (col : ColMeta) : Bytes :=
  match col.type with
  | .int => wordBytes 0x7FFFFFFF
  | .float => wordBytes 0x7F7FFFFF
  | .string => List.replicate col.len 127

end ColMeta

namespace ScanKeys

/-- The default values of the columns from `lowerCol` on, in both keys. -/
def fill (keys : ScanKeys) (cols : List ColMeta) : ScanKeys :=
  { keys with
    keyStart := fun i => if keys.lowerCol ≤ i then cols[i]?.map (·.minBytes) else keys.keyStart i
    keyEnd := fun i => if keys.lowerCol ≤ i then cols[i]?.map (·.maxBytes) else keys.keyEnd i }

/-- The buffer of a key. Comparing bytes that were never written is undefined. -/
def bytes (key : ℕ → Option Bytes) : ℕ → Except DbError Bytes
  | 0 => return []
  | n + 1 => do
    let done ← bytes key n
    match key n with
    | some part => return done ++ part
    | none => throw .crash

/-- One side of the range: a side that no column bounds has no key. -/
def side (boundCols : ℕ) (key : ℕ → Option Bytes) (n : ℕ) : Except DbError (Option Bytes) :=
  if boundCols = 0 then return none else some <$> bytes key n

end ScanKeys

namespace IndexScanExecutor

/-- The index that the column names are a prefix of. -/
def matchIndex (tabMeta : TabMeta) (indexColNames : List String) : Except DbError IndexMeta :=
  match tabMeta.indexes.find? fun index => indexColNames.isPrefixOf (index.cols.map (·.name)) with
  | some index => return index
  | none => throw (.rmdb .internalError)

/-- The scanned table comes on the left; a condition without it fails an assertion. -/
def turnCond (tab : String) (cond : Condition) : Except DbError Condition :=
  if cond.lhsCol.tabName = tab then return cond
  else match cond.rhs with
    | .val _ _ => throw .crash
    | .col rhsCol =>
      if rhsCol.tabName = tab then return ⟨rhsCol, cond.op.swap, .col cond.lhsCol⟩ else throw .crash

/-- What the constructor makes of a condition. An equality with another table is left to the join. -/
def feedCond (tab : String) (cond : Condition) : Except DbError (Option Condition) := do
  let cond ← turnCond tab cond
  match cond.rhs with
  | .val _ _ => return some cond
  | .col rhsCol => return if cond.op = .eq ∧ cond.lhsCol.tabName ≠ rhsCol.tabName then none else some cond

/-- The conditions as the scan evaluates them. -/
def heldConds (tab : String) (tabMeta : TabMeta) (conds : List Condition) :
    Except DbError (List Condition) := do
  (← conds.mapM (feedCond tab)).reduceOption.mapM (prepareCond tab tabMeta.cols)

/-- The first literal that a column is compared with. -/
def literalOn (tab : String) (conds : List Condition) (colName : String) : Option (CompOp × Option Bytes) :=
  conds.findSome? fun cond =>
    match cond.rhs with
    | .val _ raw => if cond.lhsCol = ⟨tab, colName⟩ then some (cond.op, raw) else none
    | .col _ => none

/-- Where the keys hold a column: `get_col` takes the first column of the index with its name. -/
def place (index : List ColMeta) (col : ColMeta) : ℕ := index.findIdx (·.name = col.name)

/-- The loop over the columns of the index: an equality goes on with the next column, and so does
`<>`, which sets nothing. -/
def keysFrom (index : List ColMeta) (first : String → Option (CompOp × Option Bytes)) :
    List ColMeta → ScanKeys → Except DbError ScanKeys
  | [], keys => return keys
  | col :: cols, keys =>
    match first col.name with
    | none => return keys
    | some (op, raw) => do
      let raw ← rawOf raw
      let i := place index col
      match op with
      | .eq => keysFrom index first cols ((keys.setLower i raw).setUpper i raw)
      | .gt | .ge => return keys.setLower i raw
      | .lt | .le => return keys.setUpper i raw
      | .ne => keysFrom index first cols keys

/-- The keys to search for. -/
def searchKeys (first : String → Option (CompOp × Option Bytes)) (cols : List ColMeta) :
    Except DbError (Option Bytes × Option Bytes) := do
  let keys ← keysFrom cols first cols ScanKeys.empty
  let filled := keys.fill cols
  let lower ← ScanKeys.side keys.lowerCol filled.keyStart cols.length
  let upper ← ScanKeys.side keys.upperCol filled.keyEnd cols.length
  return (lower, upper)

def scan (tab : String) (tabMeta : TabMeta) (ihs : String → Option (IxIndexHandle Bytes)) (view : TableView)
    (conds : List Condition) (indexColNames : List String) : Except DbError (List Rid) := do
  let index ← matchIndex tabMeta indexColNames
  let conds ← heldConds tab tabMeta conds
  match ihs (getIndexName tab index) with
  | none => throw (.rmdb .internalError)
  | some ih =>
    let (lower, upper) ← searchKeys (literalOn tab conds) index.cols
    let rids ← (ih.scanBetween index.compare lower upper).mapError IxError.toDbError
    view.select (evalCond (tabMeta.tableCols tab)) conds rids

end IndexScanExecutor
end Rmdb
