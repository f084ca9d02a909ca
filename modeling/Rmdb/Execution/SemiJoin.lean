import Mathlib.Data.List.Permutation
import Rmdb.Execution.SelectPlan

/-! The kind of a JOIN clause, which gets lost on the way to the executors. -/
namespace Rmdb

open Product Program Planner

inductive JoinType where
  | inner
  | left
  | right
  | full
  | semi
deriving DecidableEq, Repr

structure JoinExpr where
  right : String
  conds : List Condition
  type : JoinType
deriving DecidableEq, Repr

/-- A SELECT with its JOIN clauses. -/
structure JoinSelect where
  tables : List String
  jointree : List JoinExpr
  conds : List Condition
  cols : List TabCol
  isSelectAll : Bool
deriving DecidableEq, Repr

namespace JoinSelect

/-- The semantic check adds the right tables that are new. Of the JOIN clauses the planner takes the conditions,
and makes inner joins of them all. -/
def query (select : JoinSelect) : Query where
  tables := select.jointree.foldl
    (fun tables join => if tables.contains join.right then tables else tables ++ [join.right]) select.tables
  conds := select.conds
  hasJoin := select.jointree ≠ []
  onConds := select.jointree.flatMap (·.conds)
  cols := select.cols
  isSelectAll := select.isSelectAll

end JoinSelect

namespace Query

/-- What the scan of a table in a JOIN clause and the filter above it return. -/
def scanRows (env : Env) (query : Query) (tab : String) : Except DbError (List (Option Bytes)) := do
  let tabMeta ← Analyze.getTable env.tabs tab
  Plan.scanRows env tab (getIndexCols tab tabMeta (query.handed tab)) [] (query.handed tab)

/-- What comes up from a table, nothing if its scan throws. -/
def scanned (env : Env) (query : Query) (tab : String) : List (Option Bytes) :=
  match scanRows env query tab with
  | .ok rows => rows
  | .error _ => []

/-- The rows of a table that come up to the join. -/
def scannedRows (env : Env) (query : Query) (tab : String) : List Row :=
  (scanned env query tab).reduceOption.map (tab, ·)

def scannedTuples (env : Env) (query : Query) (tab : String) : List Tuple := (scannedRows env query tab).map env.tuple

/-- The conditions between rows of the two tables. -/
def pairConds (query : Query) : List Condition := query.onConds ++ query.conds.filter crossTable

/-- The rows of the right table that the conditions allow beside a row of the left one. -/
def partners (env : Env) (query : Query) (right : String) (l : Tuple) : List Tuple :=
  (scannedTuples env query right).filter fun r => query.pairConds.all (·.holdsOn (l ++ r))

/-- The join of the two tables prints each left row that has a partner once. -/
structure SemiPlanned (env : Env) (query : Query) (left right : String) : Prop where
  selected : ∀ col ∈ query.cols, col.tabName ∈ query.tables ∧ env.HasCol col
  projected : query.isSelectAll = false → ∀ cond ∈ query.onConds, ∀ col ∈ condCols cond,
    col.tabName ∈ query.tables → env.HasCol col
  /-- The first scan returns, and so does the second if it is started. -/
  scans : ∀ before tab after, query.order env = before ++ tab :: after → (∀ t ∈ before, scanned env query t ≠ []) →
    ∃ rows, scanRows env query tab = .ok rows
  /-- A null pointer of a filter meets no row on the other side. -/
  nulls : (none ∈ scanned env query left → scanned env query right = []) ∧
    (none ∈ scanned env query right → scanned env query left = [])
  /-- What the plan leaves out holds anyway. -/
  implied : ∀ l ∈ scannedTuples env query left, ∀ r ∈ scannedTuples env query right,
    (∀ cond ∈ query.onConds, between [left, right] cond = true → cond.holdsOn (l ++ r) = true) →
      ∀ cond ∈ query.pairConds, cond.holdsOn (l ++ r) = true
  /-- No left row has two partners. -/
  once : ∀ l ∈ scannedTuples env query left, (query.partners env right l).length ≤ 1
  /-- A right row is not printed. -/
  leftOnly : (∃ l ∈ scannedTuples env query left, query.partners env right l ≠ []) →
    ∀ col ∈ query.cols, col.tabName = left

/-! ### The two scans -/

section
variable {env : Env} {query : Query} {tab : String} {tabMeta : TabMeta} {rows : List (Option Bytes)}

theorem scanned_eq (h : scanRows env query tab = .ok rows) : scanned env query tab = rows := by
  unfold scanned
  rw [h]

/-- Without conditions of the WHERE clause every row of the table comes up. -/
theorem scannedRows_eq_rows (hmeta : env.tabs tab = some tabMeta) (h : query.handed tab = []) :
    scannedRows env query tab = env.rows tab := by
  have hmatched : ∀ i cols, matchedCols tab [] i cols = [] := by
    intro i cols
    cases cols with
    | nil => rfl
    | cons col cols => rfl
  have hindex : getIndexCols tab tabMeta [] = none := by
    have hbest : ∀ indexes : List IndexMeta, (indexes.foldl (fun best index =>
        if best.length < (matchedCols tab [] 0 index.cols).length then matchedCols tab [] 0 index.cols else best) []) =
        [] := by
      intro indexes
      induction indexes with
      | nil => rfl
      | cons index indexes ih => rwa [List.foldl_cons, hmatched, if_neg (lt_irrefl _)]
    exact if_pos (hbest tabMeta.indexes)
  have hscan : SeqScanExecutor.scan tab tabMeta (env.view tab) [] =
      .ok ((env.view tab).rids.filter fun rid => ((env.view tab).getRecord rid).any fun _ => true) :=
    TableView.select_eq fun _ _ _ _ => rfl
  have hrows : scanRows env query tab = .ok ((env.records tab).map some) := by
    unfold scanRows Analyze.getTable
    rw [hmeta, h]
    change Plan.scanRows env tab (getIndexCols tab tabMeta []) [] [] = _
    rw [hindex]
    unfold Plan.scanRows Analyze.getTable Plan.scanRids
    rw [hmeta]
    change (SeqScanExecutor.scan tab tabMeta (env.view tab) [] >>= _) = _
    rw [hscan]
    change Except.ok _ = _
    rw [TableView.filterMap_filter, List.filter_eq_self.mpr fun _ _ => rfl]
    rfl
  unfold scannedRows
  rw [scanned_eq hrows, List.reduceOption, List.filterMap_map]
  exact congrArg (List.map (tab, ·)) List.filterMap_some

theorem scannedRows_fst (env : Env) (query : Query) : ∀ tab, ∀ row ∈ scannedRows env query tab, row.1 = tab := by
  intro tab row hrow
  obtain ⟨rec_, -, rfl⟩ := List.mem_map.mp hrow
  rfl

end

/-! ### The join of the two tables -/

section
variable {env : Env} {query : Query} {left right x y : String}

/-- The scans of the two tables return, and the columns are there. -/
structure PairRuns (env : Env) (query : Query) (x y : String) : Prop where
  selected : ∀ col ∈ query.cols, col.tabName ∈ query.tables ∧ env.HasCol col
  projected : query.isSelectAll = false → ∀ cond ∈ query.onConds, ∀ col ∈ condCols cond,
    col.tabName ∈ query.tables → env.HasCol col
  scans : ∀ before tab after, query.order env = before ++ tab :: after → (∀ t ∈ before, scanned env query t ≠ []) →
    ∃ rows, scanRows env query tab = .ok rows
  nulls : (none ∈ scanned env query x → scanned env query y = []) ∧ (none ∈ scanned env query y → scanned env query x = [])

theorem PairRuns.symm (h : query.PairRuns env x y) : query.PairRuns env y x :=
  ⟨h.selected, h.projected, h.scans, h.nulls.symm⟩

theorem SemiPlanned.runs (h : query.SemiPlanned env x y) : query.PairRuns env x y :=
  ⟨h.selected, h.projected, h.scans, h.nulls⟩

theorem exists_row_of_mem_scannedTuples {l : Tuple} (h : l ∈ scannedTuples env query left) :
    ∃ row : Row, row.1 = left ∧ env.tuple row = l := by
  obtain ⟨row, hrow, rfl⟩ := List.mem_map.mp h
  exact ⟨row, scannedRows_fst env query left row hrow, rfl⟩

theorem exists_getCell {col : TabCol} {l : Tuple} (hcol : env.HasCol col) (h : l ∈ scannedTuples env query col.tabName) :
    ∃ cell, getCell l col = some cell := by
  obtain ⟨row, hrow, rfl⟩ := exists_row_of_mem_scannedTuples h
  have hheader := getCell_header col (env.tuple_header row)
  have hfind := hcol.find
  rw [← hrow, ← hheader, Option.isSome_map] at hfind
  exact Option.isSome_iff_exists.mp hfind

end
end Query

namespace JoinSelect

end JoinSelect
end Rmdb
