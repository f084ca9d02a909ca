import Rmdb.Execution.Meaning
import Rmdb.Execution.Scans

/-! The executors that the portal makes of a plan, and the rows they produce. A tuple is kept as its
columns, each with its bytes. -/
namespace Rmdb

open Binary32

abbrev Tuple := List (TableCol × Bytes)

/-- Whether an executor looks a column up here. -/
def TableCol.is (target : TabCol) (col : TableCol) : Bool :=
  col.tabName = target.tabName ∧ col.name = target.colName

def getCell (tuple : Tuple) (target : TabCol) : Option (TableCol × Bytes) :=
  tuple.find? fun cell => cell.1.tabName = target.tabName ∧ cell.1.name = target.colName

def Tuple.bytes (tuple : Tuple) : Bytes := tuple.flatMap (·.2)

/-- A cell with all bytes of the tuple from its first one on. -/
def cellFrom (target : TabCol) : Tuple → Option (TableCol × Bytes)
  | [] => none
  | cell :: rest => if TableCol.is target cell.1 then some (cell.1, Tuple.bytes (cell :: rest)) else cellFrom target rest

def projectTuple (cols : List TabCol) (tuple : Tuple) : Tuple := cols.filterMap (getCell tuple)

def TabMeta.tuple (tabMeta : TabMeta) (tab : String) (rec_ : Bytes) : Tuple :=
  (tabMeta.tableCols tab).map fun col => (col, col.field rec_)

/-- What the executors read. -/
structure Env where
  tabs : String → Option TabMeta
  ihs : String → Option (IxIndexHandle Bytes)
  view : String → TableView
  rowCount : String → ℤ

namespace FilterExecutor

/-- The rows that pass. When there are rows and none passes, the first call of `Next` runs to the end and
returns a null pointer. -/
def rows (cols : List TableCol) (conds : List Condition) (rows : List Bytes) :
    Except DbError (List (Option Bytes)) := do
  let kept ← rows.filterM fun rec_ => conds.allM (evalCond cols rec_)
  return if rows ≠ [] ∧ kept = [] then [none] else kept.map some

end FilterExecutor

namespace NestedLoopJoinExecutor

def holdsFloat (op : CompOp) (lhs rhs : BitVec 32) : Bool :=
  let diff := Float32.ofBits ⟨lhs⟩ - Float32.ofBits ⟨rhs⟩
  match op with
  | .eq => diff.abs ≤ epsilon
  | .ne => epsilon < diff.abs
  | .lt => diff < -epsilon
  | .gt => epsilon < diff
  | .le => diff ≤ epsilon
  | .ge => -epsilon ≤ diff

/-- Both sides are read with the type of the left column, a number from four bytes wherever its column ends. -/
def compareCells (op : CompOp) (lhs rhs : TableCol × Bytes) : Bool :=
  match lhs.1.type with
  | .int => op.holdsInt (readWord lhs.2) (readWord rhs.2)
  | .float => holdsFloat op (readWord lhs.2) (readWord rhs.2)
  | .string => op.holds (compare (upToNul (lhs.2.take lhs.1.len)) (upToNul (rhs.2.take rhs.1.len)))

/-- The comparison of floats is the one of the scans. -/
theorem holdsFloat_eq (op : CompOp) (lhs rhs : BitVec 32) :
    holdsFloat op lhs rhs = ((difference (.ofBits ⟨lhs⟩) (.ofBits ⟨rhs⟩)).map tolerantOrder).any op.holds := by
  cases h : difference (.ofBits ⟨lhs⟩) (.ofBits ⟨rhs⟩) with
  | none =>
    have hsub := count_sub_none h
    have habs : count (Float32.ofBits ⟨lhs⟩ - Float32.ofBits ⟨rhs⟩).abs = none := by
      rw [count_abs, hsub]
      rfl
    cases op <;> apply decide_eq_false
    · exact not_le_of_nan habs
    · exact not_lt_of_nan habs
    · exact nan_not_lt hsub
    · exact not_lt_of_nan hsub
    · exact not_le_of_nan hsub
    · exact not_le_nan hsub
  | some d =>
    obtain ⟨heq, hgt, hlt⟩ := tolerantOrder_cases d
    rw [Option.map_some, Option.any_some]
    cases op <;> apply decide_eq_decide.mpr
    · rw [heq, abs_sub_le_epsilon h]
    · rw [ne_eq, heq, epsilon_lt_abs_sub h]
    · rw [hlt, sub_lt_neg_epsilon h]
    · rw [hgt, epsilon_lt_sub h]
    · rw [ne_eq, hgt, sub_le_epsilon h, not_le]
    · rw [ne_eq, hlt, neg_epsilon_le_sub h, not_le]

/-- Columns of one type are compared by their values. -/
theorem compareCells_eq {lhs rhs : TableCol × Bytes} (op : CompOp) (h : lhs.1.type = rhs.1.type) :
    compareCells op lhs rhs = Value.meets op (cellValue lhs) (cellValue rhs) := by
  unfold compareCells cellValue
  rw [← h]
  cases lhs.1.type with
  | int => exact (Value.meets_int op _ _).symm
  | float =>
    rw [holdsFloat_eq]
    rfl
  | string => rfl

section
variable (leftCols rightCols : List TableCol) (left right : Option Tuple)

/-- A column in the left tuple or else in the right one, which must be there. -/
def operand (target : TabCol) : Except DbError (Option (TableCol × Bytes)) :=
  if leftCols.any (TableCol.is target) then
    match left with
    | some tuple => return cellFrom target tuple
    | none => throw .crash
  else if rightCols.any (TableCol.is target) then
    match right with
    | some tuple => return cellFrom target tuple
    | none => throw .crash
  else return none

/-- A condition without one of its columns is passed over. -/
def satisfies (cond : Condition) : Except DbError Bool := do
  let lhs ← operand leftCols rightCols left right cond.lhsCol
  let rhs ← match cond.rhs with
    | .val _ _ => pure none
    | .col rhsCol => operand leftCols rightCols left right rhsCol
  match lhs, rhs with
  | some lhs, some rhs => return compareCells cond.op lhs rhs
  | _, _ => return true

def joinPair (conds : List Condition) : Except DbError (Option Tuple) := do
  if ← conds.allM (satisfies leftCols rightCols left right) then
    match left, right with
    | some left, some right => return some (left ++ right)
    | _, _ => throw .crash
  else return none

end
end NestedLoopJoinExecutor

namespace Plan

variable (env : Env)

/-- The columns of an executor, which its constructor looks up. -/
def cols : Plan → Except DbError (List TableCol)
  | scan tab _ _ _ => do return (← Analyze.getTable env.tabs tab).tableCols tab
  | projection sub cols => do
    let subCols ← sub.cols
    if subCols = [] then throw (.rmdb .internalError)
    cols.mapM (getCol subCols)
  | join left right _ => do return (← left.cols) ++ (← right.cols)

def scanRids (tab : String) (tabMeta : TabMeta) (indexColNames : Option (List String)) (conds : List Condition) :
    Except DbError (List Rid) :=
  match indexColNames with
  | none => SeqScanExecutor.scan tab tabMeta (env.view tab) conds
  | some names => IndexScanExecutor.scan tab tabMeta env.ihs (env.view tab) conds names

/-- The rows of a table after its scan and its filter. -/
def scanRows (tab : String) (indexColNames : Option (List String)) (conds filterConds : List Condition) :
    Except DbError (List (Option Bytes)) := do
  let tabMeta ← Analyze.getTable env.tabs tab
  let rids ← scanRids env tab tabMeta indexColNames conds
  let rows := rids.filterMap (env.view tab).getRecord
  if filterConds = [] then return rows.map some
  else FilterExecutor.rows (tabMeta.tableCols tab) filterConds rows

/-- What `Next` returns until the executor is at its end. The right side of a join is not started while
the left side is empty. -/
def run : Plan → Except DbError (List (Option Tuple))
  | scan tab indexColNames conds filterConds => do
    let tabMeta ← Analyze.getTable env.tabs tab
    let rows ← scanRows env tab indexColNames conds filterConds
    return rows.map fun row => row.map (tabMeta.tuple tab)
  | projection sub cols => do
    return (← sub.run).map fun row => row.map (projectTuple cols)
  | join left right conds => do
    let lefts ← left.run
    if lefts = [] then return []
    let rights ← right.run
    let leftCols ← left.cols env
    let rightCols ← right.cols env
    let found ← lefts.mapM fun l => rights.mapM fun r =>
      NestedLoopJoinExecutor.joinPair leftCols rightCols l r conds
    return found.flatten.reduceOption.map some

end Plan

/-- The rows that a SELECT prints; null pointers are passed over. -/
def runSelect (env : Env) (query : Query) : Except DbError (List Tuple) := do
  let plan ← Planner.generateSelectPlan env.tabs env.rowCount query
  let _ ← plan.cols env
  return (← plan.run env).reduceOption

end Rmdb
