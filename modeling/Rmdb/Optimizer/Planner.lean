import Rmdb.Execution.Conditions

/-! The planner of a SELECT: conditions are pushed down to the scans, the tables are joined one after
another. -/
namespace Rmdb

/-- A SELECT as the semantic check leaves it, without aggregates, sorting and aliases. `onConds` are the
conditions of all JOIN clauses in their order; they are not checked. -/
structure Query where
  tables : List String
  conds : List Condition
  hasJoin : Bool
  onConds : List Condition
  cols : List TabCol
  isSelectAll : Bool

/-- A scan comes with the filter above it, if it has one. -/
inductive Plan where
  | scan (tab : String) (indexColNames : Option (List String)) (conds filterConds : List Condition)
  | projection (sub : Plan) (cols : List TabCol)
  | join (left right : Plan) (conds : List Condition)

namespace Planner

/-! ### The index of a scan -/

/-- The operators of the conditions on a column, with the column on the left. -/
def opsOn (tab : String) (conds : List Condition) (colName : String) : List CompOp :=
  conds.filterMap fun cond =>
    if cond.lhsCol.tabName = tab then if cond.lhsCol.colName = colName then some cond.op else none
    else match cond.rhs with
      | .val _ _ => none
      | .col rhsCol => if rhsCol = ⟨tab, colName⟩ then some cond.op.swap else none

/-- Every operator but `<>` will do on the first column, only `=` on the later ones. -/
def usable (i : ℕ) (op : CompOp) : Bool := (i = 0 || op = .eq) && op ≠ .ne

/-- The leading columns of an index that the conditions match. -/
def matchedCols (tab : String) (conds : List Condition) : ℕ → List ColMeta → List String
  | _, [] => []
  | i, col :: cols =>
    if (opsOn tab conds col.name).any (usable i) then col.name :: matchedCols tab conds (i + 1) cols else []

/-- `get_index_cols`: the longest match, the first among equals. -/
def getIndexCols (tab : String) (tabMeta : TabMeta) (conds : List Condition) : Option (List String) :=
  let best := tabMeta.indexes.foldl (fun best index =>
    let matched := matchedCols tab conds 0 index.cols
    if best.length < matched.length then matched else best) []
  if best = [] then none else some best

/-! ### Pushing conditions and projections down -/

/-- The conditions that `pop_conds` takes for a table: its literals, and every condition within one
table, whichever it is. -/
def popped (tab : String) (cond : Condition) : Bool :=
  match cond.rhs with
  | .val _ _ => cond.lhsCol.tabName = tab
  | .col rhsCol => cond.lhsCol.tabName = rhsCol.tabName

/-- For each table in turn the conditions it takes from those that are left. -/
def popConds : List String → List Condition → List (String × List Condition) × List Condition
  | [], conds => ([], conds)
  | tab :: tabs, conds =>
    let (leaves, rest) := popConds tabs (conds.filter fun cond => !popped tab cond)
    ((tab, conds.filter (popped tab)) :: leaves, rest)

def colsOf (tab : String) (cols : List TabCol) : List TabCol := cols.filter (·.tabName = tab)

def condCols (cond : Condition) : List TabCol :=
  match cond.rhs with
  | .val _ _ => [cond.lhsCol]
  | .col rhsCol => [cond.lhsCol, rhsCol]

/-- The columns of a table that the SELECT list and the JOIN clauses need. -/
def tableProjection (query : Query) (tab : String) : List TabCol :=
  if query.hasJoin && !query.isSelectAll then
    (colsOf tab query.cols ++ colsOf tab (query.onConds.flatMap condCols)).dedup
  else []

def project (query : Query) (tab : String) (plan : Plan) : Plan :=
  if query.isSelectAll ∨ tableProjection query tab = [] then plan
  else .projection plan (tableProjection query tab)

/-! ### Joins -/

/-- A condition between the new table and one that was joined before. -/
def connects (newTable : String) (leftTables : List String) (cond : Condition) : Bool :=
  match cond.rhs with
  | .val _ _ => false
  | .col rhsCol =>
    cond.lhsCol.tabName = newTable && leftTables.contains rhsCol.tabName ||
      rhsCol.tabName = newTable && leftTables.contains cond.lhsCol.tabName

def isColCond (cond : Condition) : Bool :=
  match cond.rhs with
  | .val _ _ => false
  | .col _ => true

/-- The left-deep tree of the JOIN clauses. Each join takes its conditions from all of them. -/
def joinOn (onConds : List Condition) : Plan → List String → List (String × Plan) → Plan
  | plan, _, [] => plan
  | plan, leftTables, (tab, scan) :: rest =>
    joinOn onConds (.join plan scan (onConds.filter (connects tab leftTables))) (leftTables ++ [tab]) rest

/-- The left-deep tree of a FROM list. Each join takes its conditions away; what is left goes to the
last one. -/
def joinFrom : List Condition → Plan → List String → List (String × Plan) → Plan
  | _, plan, _, [] => plan
  | conds, plan, leftTables, (tab, scan) :: rest =>
    let left := conds.filter fun cond => !connects tab leftTables cond
    let joinConds := conds.filter (connects tab leftTables)
    match rest with
    | [] => .join plan scan (joinConds ++ left.filter isColCond)
    | next :: rest => joinFrom left (.join plan scan joinConds) (leftTables ++ [tab]) (next :: rest)

/-- The first of the entries with the least number of rows. -/
def takeMin (rowCount : String → ℤ) (entry : String × Plan) :
    List (String × Plan) → (String × Plan) × List (String × Plan)
  | [] => (entry, [])
  | next :: rest =>
    let (least, others) := takeMin rowCount next rest
    if rowCount least.1 < rowCount entry.1 then (least, entry :: others) else (entry, next :: rest)

def greedyFrom (rowCount : String → ℤ) : ℕ → List (String × Plan) → List (String × Plan)
  | 0, _ => []
  | _ + 1, [] => []
  | n + 1, entry :: rest => (takeMin rowCount entry rest).1 :: greedyFrom rowCount n (takeMin rowCount entry rest).2

/-- The tables by their number of rows. -/
def greedyOrder (rowCount : String → ℤ) (entries : List (String × Plan)) : List (String × Plan) :=
  greedyFrom rowCount entries.length entries

/-- More than two tables, a condition between columns, or, without any condition, tables of very
different sizes. -/
def useGreedy (rowCount : String → ℤ) (tables : List String) (onConds : List Condition) : Bool :=
  if 2 < tables.length then true
  else if onConds ≠ [] then onConds.any isColCond
  else match (tables.map rowCount).min?, (tables.map rowCount).max? with
    | some minSize, some maxSize => minSize * 10 < maxSize
    | _, _ => false

section
variable (tabs : String → Option TabMeta) (rowCount : String → ℤ)

/-- A table of a query with JOIN clauses: the filter alone has the conditions. -/
def joinScan (query : Query) (tab : String) (conds : List Condition) : Except DbError (String × Plan) := do
  let tabMeta ← Analyze.getTable tabs tab
  return (tab, project query tab (.scan tab (getIndexCols tab tabMeta conds) [] conds))

/-- A table of a FROM list: a sequential scan has the conditions and a filter above it. -/
def fromScan (query : Query) (tab : String) (conds : List Condition) : Except DbError (String × Plan) := do
  let tabMeta ← Analyze.getTable tabs tab
  let indexColNames := getIndexCols tab tabMeta conds
  return (tab, project query tab (.scan tab indexColNames conds (if indexColNames = none then conds else [])))

def buildJoinPlan (query : Query) : Except DbError Plan := do
  let (leaves, _) := popConds query.tables query.conds
  let scans ← leaves.mapM fun (tab, conds) => joinScan tabs query tab conds
  let order := if useGreedy rowCount query.tables query.onConds then greedyOrder rowCount scans else scans
  match order with
  | [] => throw .crash
  | (tab, scan) :: rest => return joinOn query.onConds scan [tab] rest

def makeOneRel (query : Query) : Except DbError Plan := do
  if query.hasJoin then buildJoinPlan tabs rowCount query
  else
    let (leaves, conds) := popConds query.tables query.conds
    match ← leaves.mapM fun (tab, conds) => fromScan tabs query tab conds with
    | [] => throw .crash
    | (tab, scan) :: rest => return joinFrom conds scan [tab] rest

/-- A single table is scanned with all conditions of the WHERE clause. -/
def physicalOptimization (query : Query) : Except DbError Plan :=
  match query.tables with
  | [tab] => do
    let tabMeta ← Analyze.getTable tabs tab
    let indexColNames := getIndexCols tab tabMeta query.conds
    return .scan tab indexColNames query.conds (if indexColNames = none then query.conds else [])
  | _ => makeOneRel tabs rowCount query

def generateSelectPlan (query : Query) : Except DbError Plan := do
  return .projection (← physicalOptimization tabs rowCount query) query.cols

end
end Planner
end Rmdb
