import Rmdb.Execution.Aggregation
import Rmdb.Execution.SelectPlan

/-! A whole SELECT: what the planner puts above the joins, and which executors look at the limit. -/
namespace Rmdb

open Program

/-! ### The executors above the joins -/

namespace SortExecutor

def compareFields (lhs rhs : TableCol × Bytes) : Ordering :=
  match lhs.1.type with
  | .int => compare (readWord lhs.2).toInt (readWord rhs.2).toInt
  | .float =>
    let a := Float32.ofBits ⟨readWord lhs.2⟩
    let b := Float32.ofBits ⟨readWord rhs.2⟩
    if a < b then .lt else if b < a then .gt else .eq
  | .string => memcmp lhs.2 rhs.2 lhs.1.len

/-- Each key comes with whether it is descending. -/
def compareRecords : List (TabCol × Bool) → Tuple → Tuple → Bool
  | [], _, _ => false
  | (col, isDesc) :: rest, a, b =>
    match getCell a col, getCell b col with
    | some x, some y =>
      match compareFields x y with
      | .eq => compareRecords rest a b
      | .lt => !isDesc
      | .gt => isDesc
    | _, _ => compareRecords rest a b

def performSort (stl : Stl) (keys : List (TabCol × Bool)) (limitVal : ℤ) (records : List Tuple) : List Tuple :=
  cut limitVal (stl.sort (compareRecords keys) records)

/-- The first call of `Next` sorts; without records it returns a null pointer. -/
def rows (stl : Stl) (keys : List (TabCol × Bool)) (limitVal : ℤ) (prevRows : List (Option Tuple)) :
    List (Option Tuple) :=
  let sorted := performSort stl keys limitVal prevRows.reduceOption
  if sorted = [] then [none] else sorted.map some

/-- The null pointer is passed over. -/
theorem reduceOption_rows {stl : Stl} {keys : List (TabCol × Bool)} {limitVal : ℤ} {prevRows : List (Option Tuple)} :
    (rows stl keys limitVal prevRows).reduceOption =
      performSort stl keys limitVal prevRows.reduceOption := by
  unfold rows
  dsimp only
  split
  · rename_i hnil
    rw [hnil]
    rfl
  · exact List.filterMap_map.trans List.filterMap_some

end SortExecutor

namespace ProjectionExecutor

/-- The rows after `count` others. -/
def rows (selCols : List TabCol) (limitVal : ℤ) : ℕ → List (Option Tuple) → List (Option Tuple)
  | _, [] => []
  | count, row :: rest =>
    if 0 < limitVal ∧ limitVal ≤ count then []
    else match row with
      | none => none :: rows selCols limitVal count rest
      | some tuple => some (projectTuple selCols tuple) :: rows selCols limitVal (count + 1) rest

theorem rows_unlimited {selCols : List TabCol} {limitVal : ℤ} (h : ¬0 < limitVal) (prevRows : List (Option Tuple))
    (count : ℕ) : rows selCols limitVal count prevRows = prevRows.map (·.map (projectTuple selCols)) := by
  induction prevRows generalizing count with
  | nil => rfl
  | cons row rest ih =>
    have hlimit : ¬(0 < limitVal ∧ limitVal ≤ count) := fun hlimit => h hlimit.1
    cases row with
    | none =>
      rw [rows, if_neg hlimit, ih]
      rfl
    | some tuple =>
      rw [rows, if_neg hlimit, ih]
      rfl

end ProjectionExecutor

/-! ### The plan of a SELECT -/

/-- A SELECT with aggregates, sorting and a limit. -/
structure SelectQuery extends Query where
  hasAgg : Bool
  aggFuncs : List AggFunc
  hasGroupBy : Bool
  groupByCols : List TabCol
  havingConds : List HavingCond
  hasOrderBy : Bool
  orderByCols : List OrderByCol
  orderByDirections : List Bool
  limitVal : ℤ

/-- What stands above the scans and joins of a SELECT. -/
inductive SelectPlan where
  | sub (plan : Plan)
  | agg (sub : SelectPlan) (clause : AggClause)
  | sort (sub : SelectPlan) (orderByCols : List TabCol) (isDesc : List Bool) (limitVal : ℤ)
  | projection (sub : SelectPlan) (selCols : List TabCol) (limitVal : ℤ)

namespace Planner

/-- The columns of an aggregation, under the names that its executor gives them. -/
def aggSelCols (query : SelectQuery) : List TabCol :=
  query.groupByCols ++
    query.aggFuncs.zipIdx.map fun (f, i) => ⟨"", f.caption (query.groupByCols.length + i)⟩

def aggClause (query : SelectQuery) : AggClause :=
  ⟨query.aggFuncs, query.groupByCols, query.havingConds, query.orderByCols, query.orderByDirections, query.limitVal⟩

def generateSortPlan (query : SelectQuery) (plan : SelectPlan) : SelectPlan :=
  if query.orderByCols = [] then plan
  else .sort plan ((query.orderByCols.filter (!·.isAgg)).map (·.col)) query.orderByDirections query.limitVal

/-- The limit goes to the aggregation, the sort and the projection. -/
def generateWholePlan (tabs : String → Option TabMeta) (rowCount : String → ℤ) (query : SelectQuery) :
    Except DbError SelectPlan := do
  let plan ← physicalOptimization tabs rowCount query.toQuery
  if query.hasAgg || query.hasGroupBy then
    return .projection (.agg (.sub plan) (aggClause query)) (aggSelCols query) query.limitVal
  else
    let sorted := if query.hasOrderBy then generateSortPlan query (.sub plan) else .sub plan
    return .projection sorted query.cols query.limitVal

end Planner

/-! ### The executors of a plan -/

inductive Executor where
  | sub (plan : Plan)
  | aggregation (prev : Executor) (clause : AggClause)
  | sort (prev : Executor) (orderBy : List TabCol) (isDesc : List Bool) (limitVal : ℤ)
  | projection (prev : Executor) (selCols : List TabCol) (limitVal : ℤ)

/-- The limit of a projection is left at its default. -/
def Portal.convertPlanExecutor : SelectPlan → Executor
  | .sub plan => .sub plan
  | .agg sub clause => .aggregation (convertPlanExecutor sub) clause
  | .sort sub orderByCols isDesc limitVal => .sort (convertPlanExecutor sub) orderByCols isDesc limitVal
  | .projection sub selCols _ => .projection (convertPlanExecutor sub) selCols (-1)

namespace Executor

/-- The columns, which the constructors look up. -/
def cols (env : Env) : Executor → Except DbError (List TableCol)
  | sub plan => plan.cols env
  | aggregation prev clause => do
    let (groupCols, aggCols) ← AggregationExecutor.cols clause (← prev.cols env)
    return groupCols ++ aggCols
  | sort prev orderBy isDesc _ => do
    let prevCols ← prev.cols env
    if orderBy.length ≠ isDesc.length then throw (.rmdb .internalError)
    let _ ← orderBy.mapM (getCol prevCols)
    return prevCols
  | projection prev selCols _ => do
    let prevCols ← prev.cols env
    if prevCols = [] then throw (.rmdb .internalError)
    selCols.mapM (getCol prevCols)

def rows (stl : Stl) (env : Env) : Executor → Except DbError (List (Option Tuple))
  | sub plan => plan.run env
  | aggregation prev clause => do AggregationExecutor.rows stl clause (← prev.cols env) (← prev.rows stl env)
  | sort prev orderBy isDesc limitVal => do
    return SortExecutor.rows stl (orderBy.zip isDesc) limitVal (← prev.rows stl env)
  | projection prev selCols limitVal => do
    return ProjectionExecutor.rows selCols limitVal 0 (← prev.rows stl env)

/-- The rows that are printed. -/
def selectFrom (stl : Stl) (env : Env) (executor : Executor) : Except DbError (List Tuple) := do
  let _ ← executor.cols env
  return (← executor.rows stl env).reduceOption

end Executor

namespace Query

/-- FROM and WHERE leave at most `n` rows, if the executors get as far. -/
def KeepsAtMost (env : Env) (query : Query) (n : ℕ) : Prop :=
  ∀ plan, Planner.physicalOptimization env.tabs env.rowCount query = .ok plan →
    ∀ cols, (Plan.projection plan query.cols).cols env = .ok cols →
      ∀ rows, plan.run env = .ok rows → rows.reduceOption.length ≤ n

section
variable {env : Env} {query : Query} {n : ℕ}

theorem keepsAtMost_iff : query.KeepsAtMost env n ↔ ∀ out, runSelect env query = .ok out → out.length ≤ n := by
  unfold KeepsAtMost runSelect Planner.generateSelectPlan
  constructor
  · intro h out hout
    obtain ⟨_, hplan, hout⟩ := bind_eq_ok.mp hout
    obtain ⟨plan, hphysical, hplan⟩ := bind_eq_ok.mp hplan
    cases hplan
    obtain ⟨cols, hcols, hout⟩ := bind_eq_ok.mp hout
    obtain ⟨printed, hprinted, hout⟩ := bind_eq_ok.mp hout
    cases hout
    rw [Plan.run] at hprinted
    obtain ⟨rows, hrows, hprinted⟩ := bind_eq_ok.mp hprinted
    cases hprinted
    rw [List.reduceOption_map, List.length_map]
    exact h plan hphysical cols hcols rows hrows
  · intro h plan hphysical cols hcols rows hrows
    have hout := h (rows.map (·.map (projectTuple query.cols))).reduceOption
      (bind_eq_ok.mpr ⟨_, bind_eq_ok.mpr ⟨plan, hphysical, rfl⟩, bind_eq_ok.mpr ⟨cols, hcols,
        bind_eq_ok.mpr ⟨_, bind_eq_ok.mpr ⟨rows, hrows, rfl⟩, rfl⟩⟩⟩)
    rwa [List.reduceOption_map, List.length_map] at hout

end
end Query

namespace SelectQuery

def run (stl : Stl) (env : Env) (query : SelectQuery) : Except DbError (List Tuple) := do
  (Portal.convertPlanExecutor (← Planner.generateWholePlan env.tabs env.rowCount query)).selectFrom stl env

/-! ### The limit -/

def grouped (query : SelectQuery) : Bool := query.hasAgg || query.hasGroupBy

def sorts (query : SelectQuery) : Bool := query.hasOrderBy && query.orderByCols ≠ []

/-- The executor below the last projection. -/
def prev (query : SelectQuery) (plan : Plan) : Executor :=
  if query.grouped then .aggregation (.sub plan) (Planner.aggClause query)
  else if query.sorts then
    .sort (.sub plan) ((query.orderByCols.filter (!·.isAgg)).map (·.col)) query.orderByDirections query.limitVal
  else .sub plan

def selCols (query : SelectQuery) : List TabCol :=
  if query.grouped then Planner.aggSelCols query else query.cols

section
variable {stl : Stl} {env : Env} {query : SelectQuery} {plan : Plan} {n : ℕ}

theorem run_eq : query.run stl env = (do
    let plan ← Planner.physicalOptimization env.tabs env.rowCount query.toQuery
    (Executor.projection (query.prev plan) query.selCols (-1)).selectFrom stl env) := by
  unfold run Planner.generateWholePlan
  cases Planner.physicalOptimization env.tabs env.rowCount query.toQuery with
  | error e => rfl
  | ok plan =>
    dsimp only [bind, Except.bind]
    unfold prev selCols
    cases hgrouped : query.grouped with
    | true =>
      unfold grouped at hgrouped
      rw [if_pos hgrouped]
      rfl
    | false =>
      unfold grouped at hgrouped
      rw [hgrouped]
      unfold sorts Planner.generateSortPlan
      cases query.hasOrderBy with
      | false => rfl
      | true =>
        by_cases hcols : query.orderByCols = []
        · simp only [hcols]
          rfl
        · simp only [ne_eq, hcols, not_false_eq_true, decide_true, Bool.and_self, if_pos]
          rfl

/-- The projection passes all rows on. -/
theorem selectFrom_projection (prev : Executor) (selCols : List TabCol) :
    (Executor.projection prev selCols (-1)).selectFrom stl env = (do
      let _ ← (Executor.projection prev selCols (-1)).cols env
      return (← prev.rows stl env).reduceOption.map (projectTuple selCols)) := by
  unfold Executor.selectFrom
  rw [Executor.rows]
  cases prev.rows stl env with
  | error e => rfl
  | ok rows =>
    have hrows : (ProjectionExecutor.rows selCols (-1) 0 rows).reduceOption =
        rows.reduceOption.map (projectTuple selCols) := by
      rw [ProjectionExecutor.rows_unlimited (by decide), List.reduceOption_map]
    dsimp only [bind, Except.bind, pure, Except.pure]
    rw [hrows]

/-- Without grouping and sorting nothing looks at the limit. -/
theorem run_eq_runSelect (hgrouped : query.grouped = false) (hsorts : query.sorts = false) :
    query.run stl env = runSelect env query.toQuery := by
  have hprev : ∀ plan, query.prev plan = .sub plan := by
    intro plan
    unfold prev
    rw [hgrouped, hsorts]
    rfl
  have hcols : query.selCols = query.cols := by
    unfold selCols
    rw [hgrouped]
    rfl
  rw [run_eq, runSelect, Planner.generateSelectPlan]
  cases Planner.physicalOptimization env.tabs env.rowCount query.toQuery with
  | error e => rfl
  | ok plan =>
    dsimp only [bind, Except.bind, pure, Except.pure]
    rw [hprev, hcols, selectFrom_projection, Executor.rows, Plan.run]
    have hsame : (Executor.projection (.sub plan) query.cols (-1)).cols env =
        (Plan.projection plan query.cols).cols env := rfl
    rw [hsame]
    cases (Plan.projection plan query.cols).cols env with
    | error e => rfl
    | ok cols =>
      cases plan.run env with
      | error e => rfl
      | ok rows =>
        dsimp only [bind, Except.bind, pure, Except.pure]
        rw [List.reduceOption_map]

theorem prev_limit (v : ℤ) : prev { query with limitVal := v } plan =
    if query.grouped then .aggregation (.sub plan) { Planner.aggClause query with limitVal := v }
    else if query.sorts then
      .sort (.sub plan) ((query.orderByCols.filter (!·.isAgg)).map (·.col)) query.orderByDirections v
    else .sub plan := rfl

/-- The columns do not depend on the limit. -/
theorem prev_cols (v : ℤ) : (prev { query with limitVal := v } plan).cols env = (query.prev plan).cols env := by
  rw [prev_limit, prev]
  split
  · rfl
  · split
    · rfl
    · rfl

/-- What the executor below the projection returns with the limit. -/
theorem prev_take (hn : 0 < n) (hlimits : query.grouped = true ∨ query.sorts = true) {rows : List (Option Tuple)}
    (h : (prev { query with limitVal := -1 } plan).rows stl env = .ok rows) :
    ∃ rows', (prev { query with limitVal := n } plan).rows stl env = .ok rows' ∧
      rows'.reduceOption = rows.reduceOption.take n := by
  rw [prev_limit] at h ⊢
  cases hgrouped : query.grouped with
  | true =>
    rw [hgrouped, if_pos rfl, Executor.rows] at h
    rw [if_pos rfl, Executor.rows]
    obtain ⟨prevCols, hcols, h⟩ := bind_eq_ok.mp h
    obtain ⟨prevRows, hrows, h⟩ := bind_eq_ok.mp h
    obtain ⟨rows', h', htake⟩ := AggregationExecutor.rows_take hn h
    exact ⟨rows', bind_eq_ok.mpr ⟨prevCols, hcols, bind_eq_ok.mpr ⟨prevRows, hrows, h'⟩⟩, htake⟩
  | false =>
    have hsorts : query.sorts = true := by
      rw [hgrouped] at hlimits
      exact hlimits.resolve_left Bool.false_ne_true
    rw [hgrouped, hsorts, if_neg Bool.false_ne_true, if_pos rfl, Executor.rows] at h
    rw [hsorts, if_neg Bool.false_ne_true, if_pos rfl, Executor.rows]
    obtain ⟨prevRows, hrows, h⟩ := bind_eq_ok.mp h
    cases h
    refine ⟨_, bind_eq_ok.mpr ⟨prevRows, hrows, rfl⟩, ?_⟩
    rw [SortExecutor.reduceOption_rows, SortExecutor.reduceOption_rows, SortExecutor.performSort,
      SortExecutor.performSort, cut_pos hn, cut_none]

/-- `query` with `LIMIT n` returns the first of the rows that it returns without a limit. -/
def TakesFirst (stl : Stl) (env : Env) (query : SelectQuery) (n : ℕ) : Prop :=
  ∀ out, run stl env { query with limitVal := -1 } = .ok out →
    run stl env { query with limitVal := n } = .ok (out.take n)

/-- A sort or an aggregation cuts its rows. -/
theorem takesFirst_of_limits (hn : 0 < n) (hlimits : query.grouped = true ∨ query.sorts = true) :
    query.TakesFirst stl env n := by
  intro out hout
  rw [run_eq] at hout ⊢
  obtain ⟨plan, hplan, hout⟩ := bind_eq_ok.mp hout
  rw [selectFrom_projection] at hout
  obtain ⟨cols, hcols, hout⟩ := bind_eq_ok.mp hout
  obtain ⟨rows, hrows, hout⟩ := bind_eq_ok.mp hout
  cases hout
  obtain ⟨rows', hrows', htake⟩ := prev_take hn hlimits hrows
  refine bind_eq_ok.mpr ⟨plan, hplan, ?_⟩
  rw [selectFrom_projection]
  refine bind_eq_ok.mpr ⟨cols, ?_, bind_eq_ok.mpr ⟨rows', hrows', ?_⟩⟩
  · rw [Executor.cols, prev_cols] at hcols ⊢
    exact hcols
  · rw [htake, ← List.map_take]
    rfl

/-- Where the limit is passed over, it may only be one that cuts nothing. -/
theorem takesFirst_iff_length (hgrouped : query.grouped = false) (hsorts : query.sorts = false) :
    query.TakesFirst stl env n ↔ ∀ out, runSelect env query.toQuery = .ok out → out.length ≤ n := by
  have hsame : ∀ v, run stl env { query with limitVal := v } = runSelect env query.toQuery := fun v =>
    run_eq_runSelect hgrouped hsorts
  unfold TakesFirst
  rw [hsame, hsame]
  refine forall₂_congr fun out hout => ?_
  rw [hout, Except.ok.injEq]
  constructor
  · intro h
    exact List.take_eq_self_iff out |>.mp h.symm
  · intro h
    exact (List.take_of_length_le h).symm

/-- A limit is the prefix that it should be where something above the joins looks at it, and where it has
nothing to cut off. -/
theorem takesFirst_iff (stl : Stl) (env : Env) (query : SelectQuery) (n : ℕ) (hn : 0 < n) :
    query.TakesFirst stl env n ↔ query.grouped = true ∨ query.sorts = true ∨ query.toQuery.KeepsAtMost env n := by
  cases hgrouped : query.grouped with
  | true => simp [takesFirst_of_limits hn (.inl hgrouped)]
  | false =>
    cases hsorts : query.sorts with
    | true => simp [takesFirst_of_limits hn (.inr hsorts)]
    | false => simp [takesFirst_iff_length hgrouped hsorts, Query.keepsAtMost_iff]

end

/-! ### A table with two rows -/

def twoRows : Env :=
  ⟨Query.pairTabs, fun _ => none,
    fun _ => ⟨[⟨1, 0⟩, ⟨1, 1⟩], fun rid => some (wordBytes (.ofInt 32 rid.slotNo))⟩, fun _ => 2⟩

/-- `SELECT * FROM a`, with or without `ORDER BY x`. -/
def scanQuery (hasOrderBy : Bool) (limitVal : ℤ) : SelectQuery :=
  ⟨⟨["a"], [], false, [], [⟨"a", "x"⟩], true⟩, false, [], false, [], [], hasOrderBy,
    if hasOrderBy then [⟨⟨"a", "x"⟩, false, ⟨.count, noCol, ""⟩⟩] else [], if hasOrderBy then [true] else [], limitVal⟩

def plainStl : Stl := .stable (fun _ => []) fun _ => none

theorem takesFirst_sorted : 0 < 1 ∧ (scanQuery true (-1)).TakesFirst plainStl twoRows 1 :=
  ⟨Nat.one_pos, (takesFirst_iff plainStl twoRows (scanQuery true (-1)) 1 Nat.one_pos).mpr (.inr (.inl rfl))⟩

/-- `SELECT * FROM a LIMIT 1` returns both rows. -/
theorem not_takesFirst : ¬∀ (stl : Stl) (env : Env) (query : SelectQuery) (n : ℕ), 0 < n → query.TakesFirst stl env n := by
  intro h
  have hrows : ∃ r r', ∀ v, run plainStl twoRows (scanQuery false v) = .ok [r, r'] := ⟨_, _, fun _ => rfl⟩
  obtain ⟨r, r', hrows⟩ := hrows
  have hone := h plainStl twoRows (scanQuery false (-1)) 1 Nat.one_pos [r, r'] (hrows (-1))
  have hboth := hrows 1
  rw [show run plainStl twoRows (scanQuery false 1) = .ok ([r, r'].take 1) from hone] at hboth
  cases hboth

end SelectQuery
end Rmdb
