import Rmdb.Analyze.CheckClause
import Rmdb.Execution.Limit
import Rmdb.Execution.SemiJoin
import Rmdb.Parser.Unparse

/-! The semantic check of a statement: from the tree of the parser to the query of the planner. The alias of a column only
names it in a result and is left out, as is the name of a table that a result shows. -/
namespace Rmdb

open Program

/-! ### Values, operators and names -/

/-- The bytes of a text of the scanner. -/
def textBytes (text : String) : Bytes := text.toList.map fun c => .ofNat c.toNat

/-- A map between names, in the order of its keys. -/
abbrev NameMap := Std.ExtTreeMap String String

/-- What the default constructor makes. -/
def noAgg : AggFunc := ⟨.count, noCol, ""⟩

namespace Analyze

def convertSvValue : Ast.Value → Except DbError Value
  | .intLit val => return .int val
  | .floatLit bits => return .float bits
  | .stringLit val => return .str (textBytes val)
  | .boolLit _ => throw (.rmdb .internalError)

/-- `m.at(op)`: the map has the comparisons only, and nobody catches the `out_of_range`. -/
def convertSvCompOp : SvCompOp → Except DbError CompOp
  | .eq => return .eq
  | .ne => return .ne
  | .lt => return .lt
  | .gt => return .gt
  | .le => return .le
  | .ge => return .ge
  | .add | .sub | .mul | .div => throw .crash

def convertAggFuncType : Ast.AggFuncType → AggFuncType
  | .count => .count
  | .max => .max
  | .min => .min
  | .sum => .sum
  | .avg => .avg

def convertAgg (agg : Ast.AggFunc) (aliasName : String) : AggFunc :=
  ⟨convertAggFuncType agg.funcType, (agg.col.map fun col => ⟨col.tabName, col.colName⟩).getD noCol, aliasName⟩

/-- The tables that have an alias, first those of the FROM list. -/
def aliases (refs : List Ast.TableRef) (jointree : List Ast.JoinExpr) : List (String × String) :=
  (refs.map (fun ref => (ref.tabName, ref.aliasName)) ++ jointree.map fun join => (join.right, join.rightAlias)).filter
    (·.2 ≠ "")

def aliasToTable (names : List (String × String)) : NameMap := names.foldl (fun map name => map.insert name.2 name.1) ∅

def tableToAlias (names : List (String × String)) : NameMap := names.foldl (fun map name => map.insert name.1 name.2) ∅

/-- A column under the name of its table, if the query gives that an alias. -/
def resolve (map : NameMap) (col : Ast.Col) : TabCol :=
  ⟨if col.tabName = "" then "" else map.getD col.tabName col.tabName, col.colName⟩

/-! ### Conditions -/

/-- A condition with its aggregate functions. For an expression or a subquery on the right `get_clause` sets no member of that
side. -/
structure SvCondition extends ClauseCondition where
  lhsAgg : AggFunc
  rhsAgg : AggFunc
  isRhsSet : Bool

/-- The left-hand side: its column and its aggregate function, one of them empty. -/
def getLhs (map : NameMap) : Ast.TreeNode → Except DbError (TabCol × Option AggFunc)
  | .col col => return (resolve map col, none)
  | .aggFunc agg => return (noCol, some (convertAgg agg ""))
  | _ => throw (.rmdb .internalError)

/-- The right-hand side, if one of its members is set. -/
def getRhs (map : NameMap) : Ast.TreeNode → Except DbError (Option (Operand × Option AggFunc))
  | .value val => do return some (.val (← convertSvValue val) none, none)
  | .col col => return some (.col (resolve map col), none)
  | .aggFunc agg => return some (.col noCol, some (convertAgg agg ""))
  | _ => return none

/-- A round of the loop of `get_clause`. -/
def getCondition (map : NameMap) (expr : Ast.BinaryExpr) : Except DbError SvCondition := do
  let lhs ← getLhs map expr.lhs
  let op ← convertSvCompOp expr.op
  let rhs ← getRhs map expr.rhs
  return {
    cond := ⟨lhs.1, op, (rhs.map (·.1)).getD (.col noCol)⟩
    isLhsAgg := lhs.2.isSome
    isRhsAgg := (rhs.bind (·.2)).isSome
    lhsAgg := lhs.2.getD noAgg
    rhsAgg := (rhs.bind (·.2)).getD noAgg
    isRhsSet := rhs.isSome }

def getClause (map : NameMap) (conds : List Ast.BinaryExpr) : Except DbError (List SvCondition) :=
  conds.mapM (getCondition map)

section
variable (tabs : String → Option TabMeta)

/-- A round of the loop of `check_clause`, which reads the flag of the right-hand side if there is no aggregate function on the
left. -/
def checkSvCondition (allCols : List TableCol) (cond : SvCondition) : Except DbError SvCondition :=
  if cond.isLhsAgg then return cond
  else if !cond.isRhsSet then throw .crash
  else do return { cond with toClauseCondition := ← checkClauseCondition tabs allCols cond.toClauseCondition }

def checkSvConditions (tabNames : List String) (conds : List SvCondition) : Except DbError (List SvCondition) := do
  let allCols ← getAllCols tabs tabNames
  conds.mapM (checkSvCondition tabs allCols)

/-! ### SELECT -/

/-- `Query` with what the check fills in for a SELECT. The conditions of the JOIN clauses are still those of the parser. -/
structure SelectAnalysis where
  tables : List String
  jointree : List Ast.JoinExpr
  tableToAlias : NameMap
  aggFuncs : List AggFunc
  cols : List TabCol
  isSelectAll : Bool
  hasGroupBy : Bool
  groupByCols : List TabCol
  havingConds : List SvCondition
  hasOrderBy : Bool
  orderByCols : List OrderByCol
  orderByDirections : List Bool
  limitVal : ℤ
  conds : List SvCondition

/-- The tables of the FROM list and the right tables of the JOIN clauses, which have to exist, each once. -/
def joinTables (tables : List String) (jointree : List Ast.JoinExpr) : Except DbError (List String) :=
  jointree.foldlM (fun tables join => do
    let _ ← getTable tabs join.right
    return if tables.contains join.right then tables else tables ++ [join.right]) tables

/-- The columns of the SELECT list; without one, those of all tables. -/
def selectCols (map : NameMap) (allCols : List TableCol) (cols : List Ast.Col) (isSelectAll : Bool) :
    Except DbError (List TabCol) :=
  if isSelectAll then return allCols.map fun col => ⟨col.tabName, col.name⟩
  else cols.mapM fun col => checkColumn allCols (resolve map col)

/-- Both names of the column of `COUNT(*)` are empty. -/
def checkAgg (allCols : List TableCol) (agg : AggFunc) : Except DbError AggFunc :=
  if agg.col = noCol then return agg else do return { agg with col := ← checkColumn allCols agg.col }

/-- The alias of an aggregate function, else a column. -/
def orderByCol (allCols : List TableCol) (aggFuncs : List AggFunc) (col : Ast.Col) : Except DbError OrderByCol :=
  match aggFuncs.find? (·.aliasName = col.colName) with
  | some agg => return ⟨⟨col.tabName, col.colName⟩, true, agg⟩
  | none => do return ⟨← checkColumn allCols ⟨col.tabName, col.colName⟩, false, noAgg⟩

/-- `InternalError` is thrown otherwise. -/
def require (b : Bool) : Except DbError Unit := if b then return () else throw (.rmdb .internalError)

/-- A column with both names has to be a grouping column. -/
def grouped (groupByCols : List TabCol) (col : TabCol) : Bool :=
  col.tabName = "" || col.colName = "" || groupByCols.contains col

/-- A round of the loop over the HAVING conditions, which reads the flag of the right-hand side. -/
def checkGrouped (groupByCols : List TabCol) (cond : SvCondition) : Except DbError Unit := do
  require (cond.isLhsAgg || grouped groupByCols cond.cond.lhsCol)
  if !cond.isRhsSet then throw .crash
  else match cond.cond.rhs with
    | .val _ _ => return ()
    | .col rhsCol => require (cond.isRhsAgg || grouped groupByCols rhsCol)

/-- The checks of a query with GROUP BY. -/
def checkGroups (hasGroupBy : Bool) (cols groupByCols : List TabCol) (havingConds : List SvCondition) :
    Except DbError Unit :=
  if hasGroupBy then do
    require (cols.all groupByCols.contains)
    havingConds.forM (checkGrouped groupByCols)
  else return ()

/-- Aggregate functions in a WHERE clause are refused. -/
def checkPlain (conds : List SvCondition) : Except DbError Unit := conds.forM fun cond => require !cond.isAgg

def doSelect (cols : List Ast.Col) (aggFuncs : List Ast.AggFunc) (refs : List Ast.TableRef) (conds : List Ast.BinaryExpr)
    (jointree : List Ast.JoinExpr) (order : Option Ast.OrderBy) (groupBy : Option (List Ast.Col))
    (having : Option (List Ast.BinaryExpr)) (limit : Option (BitVec 32)) : Except DbError SelectAnalysis := do
  let tables ← joinTables tabs (refs.map (·.tabName)) jointree
  let names := aliases refs jointree
  let allCols ← getAllCols tabs tables
  let isSelectAll := cols.isEmpty && aggFuncs.isEmpty
  let selCols ← selectCols (aliasToTable names) allCols cols isSelectAll
  let aggs ← aggFuncs.mapM fun agg => checkAgg allCols (convertAgg agg agg.aliasName)
  let groupByCols ← (groupBy.getD []).mapM fun col => checkColumn allCols ⟨col.tabName, col.colName⟩
  let havingConds ← checkSvConditions tabs tables (← getClause ∅ (having.getD []))
  let orderByCols ← ((order.map (·.cols)).getD []).mapM (orderByCol allCols aggs)
  let clause ← checkSvConditions tabs tables (← getClause (aliasToTable names) conds)
  checkGroups groupBy.isSome selCols groupByCols havingConds
  checkPlain clause
  return {
    tables, jointree, tableToAlias := tableToAlias names, aggFuncs := aggs, cols := selCols, isSelectAll,
    hasGroupBy := groupBy.isSome, groupByCols, havingConds, hasOrderBy := order.isSome, orderByCols,
    orderByDirections := ((order.map (·.orderbyDirs)).getD []).map (· = .desc),
    limitVal := (limit.map BitVec.toInt).getD (-1), conds := clause }

/-! ### Statements -/

mutual

/-- The right-hand side of a SET clause as `evaluate_expr` takes it apart. -/
def exprOf : Ast.TreeNode → Expr
  | .value (.boolLit val) => .boolLit val
  | .value (.intLit val) => .value (.int val)
  | .value (.floatLit bits) => .value (.float bits)
  | .value (.stringLit val) => .value (.str (textBytes val))
  | .col col => .col ⟨col.tabName, col.colName⟩
  | .binary expr => binaryOf expr
  | _ => .other

def binaryOf : Ast.BinaryExpr → Expr
  | ⟨lhs, op, rhs⟩ => .binary (exprOf lhs) op (exprOf rhs)

end

/-- What the check finds out about a statement. -/
inductive Analysis where
  | select (select : SelectAnalysis)
  | update (tabName : String) (setClauses : List (String × Expr)) (conds : List SvCondition)
  | delete (tabName : String) (conds : List SvCondition)
  | insert (tabName : String) (values : List Value)
  | other

/-- Of an UPDATE, the table is looked up before anything else. -/
def doAnalyze : Ast.TreeNode → Except DbError Analysis
  | .selectStmt cols aggFuncs refs conds jointree order groupBy having limit => do
    return .select (← doSelect tabs cols aggFuncs refs conds jointree order groupBy having limit)
  | .updateStmt tabName setClauses conds => do
    let _ ← getTable tabs tabName
    return .update tabName (setClauses.map fun clause => (clause.colName, exprOf clause.val))
      (← checkSvConditions tabs [tabName] (← getClause ∅ conds))
  | .deleteStmt tabName conds => do
    return .delete tabName (← checkSvConditions tabs [tabName] (← getClause ∅ conds))
  | .insertStmt tabName vals => do return .insert tabName (← vals.mapM convertSvValue)
  | _ => return .other

end

/-! ### The query of the planner -/

/-- A side that is a column or an aggregate function has no value. -/
def SvCondition.having (cond : SvCondition) : HavingCond where
  lhs := ⟨cond.cond.lhsCol, cond.isLhsAgg, cond.lhsAgg, .int 0⟩
  op := cond.cond.op
  rhs := match cond.cond.rhs with
    | .val val _ => ⟨noCol, cond.isRhsAgg, cond.rhsAgg, val⟩
    | .col rhsCol => ⟨rhsCol, cond.isRhsAgg, cond.rhsAgg, .int 0⟩

/-- The query with the conditions of its JOIN clauses. -/
def SelectAnalysis.query (select : SelectAnalysis) (onConds : List Condition) : SelectQuery where
  tables := select.tables
  conds := select.conds.map (·.cond)
  hasJoin := !select.jointree.isEmpty
  onConds
  cols := select.cols
  isSelectAll := select.isSelectAll
  hasAgg := !select.aggFuncs.isEmpty
  aggFuncs := select.aggFuncs
  hasGroupBy := select.hasGroupBy
  groupByCols := select.groupByCols
  havingConds := select.havingConds.map SvCondition.having
  hasOrderBy := select.hasOrderBy
  orderByCols := select.orderByCols
  orderByDirections := select.orderByDirections
  limitVal := select.limitVal

end Analyze

namespace Planner

/-- Here an operator that is no comparison is a proper error. -/
def convertSvCompOp (op : SvCompOp) : Except DbError CompOp :=
  (Analyze.convertSvCompOp op).mapError fun _ => .rmdb .internalError

end Planner

/-! ### What is let through -/

namespace Analyze

/-- A SELECT that has passed the check. -/
structure SelectAnalysis.Checked (tabs : String → Option TabMeta) (select : SelectAnalysis) : Prop where
  known : ∀ tab ∈ select.tables, ∃ tabMeta, tabs tab = some tabMeta
  joined : ∀ join ∈ select.jointree, join.right ∈ select.tables
  selected : select.tables ≠ [] → select.cols ≠ [] ∨ select.aggFuncs ≠ []
  /-- The WHERE clause has no aggregate functions, and its columns have been found. -/
  plain : ∀ cond ∈ select.conds, cond.isAgg = false
  checked : ∃ conds, checkClause tabs select.tables conds = .ok (select.conds.map (·.cond))
  /-- With GROUP BY, only grouping columns are selected, and only they stand outside the aggregate functions of HAVING. -/
  cols : select.hasGroupBy = true → select.cols ⊆ select.groupByCols
  having : select.hasGroupBy = true → ∀ cond ∈ select.havingConds,
    (cond.isLhsAgg = false → grouped select.groupByCols cond.cond.lhsCol = true) ∧
      (cond.isRhsAgg = false → ∀ rhsCol, cond.cond.rhs = .col rhsCol → grouped select.groupByCols rhsCol = true)
  /-- ORDER BY refers to an aggregate function of the SELECT list where it does not name a column. -/
  ordered : ∀ orderCol ∈ select.orderByCols, orderCol.isAgg = true → orderCol.agg ∈ select.aggFuncs

section
variable {tabs : String → Option TabMeta} {tables tables' : List String} {allCols : List TableCol}

theorem require_eq_ok {b : Bool} (h : require b = .ok ()) : b = true := by
  unfold require at h
  split at h
  · next hb => exact hb
  · cases h

theorem getTable_eq_ok {tab : String} {tabMeta : TabMeta} (h : getTable tabs tab = .ok tabMeta) :
    tabs tab = some tabMeta := by
  unfold getTable at h
  split at h
  · next htab =>
    cases h
    exact htab
  · cases h

theorem mem_joinTables {jointree : List Ast.JoinExpr} (h : joinTables tabs tables jointree = .ok tables') :
    tables ⊆ tables' ∧ ∀ join ∈ jointree, join.right ∈ tables' := by
  induction jointree generalizing tables with
  | nil =>
    cases h
    exact ⟨List.Subset.refl _, List.forall_mem_nil _⟩
  | cons join rest ih =>
    obtain ⟨next, hnext, hrest⟩ := bind_eq_ok.mp h
    obtain ⟨tabMeta, -, hnext⟩ := bind_eq_ok.mp hnext
    cases hnext
    obtain ⟨hsub, hjoins⟩ := ih hrest
    split at hsub
    · next hcontains => exact ⟨hsub, List.forall_mem_cons.mpr ⟨hsub (List.contains_iff_mem.mp hcontains), hjoins⟩⟩
    · have hright : join.right ∈ tables' := hsub (List.mem_append_right _ List.mem_cons_self)
      exact ⟨fun tab htab => hsub (List.mem_append_left _ htab), List.forall_mem_cons.mpr ⟨hright, hjoins⟩⟩

/-- All tables are there, and their columns are among those that are found. -/
theorem known_of_getAllCols (h : getAllCols tabs tables = .ok allCols) :
    ∀ tab ∈ tables, ∃ tabMeta, tabs tab = some tabMeta ∧ tabMeta.tableCols tab ⊆ allCols := by
  have hfold : ∀ (tables : List String) (before : List TableCol), tables.foldlM (fun allCols tab => do
      return allCols ++ (← getTable tabs tab).tableCols tab) before = Except.ok allCols →
      before ⊆ allCols ∧ ∀ tab ∈ tables, ∃ tabMeta, tabs tab = some tabMeta ∧ tabMeta.tableCols tab ⊆ allCols := by
    intro tables
    induction tables with
    | nil =>
      intro before h
      cases h
      exact ⟨List.Subset.refl _, List.forall_mem_nil _⟩
    | cons tab rest ih =>
      intro before h
      obtain ⟨next, hnext, hrest⟩ := bind_eq_ok.mp h
      obtain ⟨tabMeta, htab, hnext⟩ := bind_eq_ok.mp hnext
      cases hnext
      obtain ⟨hsub, hknown⟩ := ih _ hrest
      obtain ⟨hbefore, hcols⟩ := List.append_subset.mp hsub
      exact ⟨hbefore, List.forall_mem_cons.mpr ⟨⟨tabMeta, getTable_eq_ok htab, hcols⟩, hknown⟩⟩
  exact (hfold tables [] h).2

/-- There is a column if there is a table. -/
theorem ne_nil_of_getAllCols (h : getAllCols tabs tables = .ok allCols) (hne : tables ≠ []) : allCols ≠ [] := by
  obtain ⟨tab, htab⟩ := List.exists_mem_of_ne_nil tables hne
  obtain ⟨tabMeta, -, hcols⟩ := known_of_getAllCols h tab htab
  rintro rfl
  exact tabMeta.cols_ne_nil (List.map_eq_nil_iff.mp (List.subset_nil.mp hcols))

theorem clause_of_checkSvCondition {cond cond' : SvCondition} (h : checkSvCondition tabs allCols cond = .ok cond')
    (hagg : cond'.isAgg = false) : checkCondition tabs allCols cond.cond = .ok cond'.cond := by
  unfold checkSvCondition at h
  split at h
  · next hlhs =>
    cases h
    rw [ClauseCondition.isAgg, hlhs] at hagg
    cases hagg
  · split at h
    · cases h
    · obtain ⟨clause, hclause, h⟩ := bind_eq_ok.mp h
      cases h
      unfold checkClauseCondition at hclause
      split at hclause
      · next hlhs =>
        cases hclause
        rw [hlhs] at hagg
        cases hagg
      · obtain ⟨checked, hchecked, hclause⟩ := bind_eq_ok.mp hclause
        cases hclause
        exact hchecked

/-- Without aggregate functions the conditions are checked as before. -/
theorem checkClause_of_checkSvConditions {conds conds' : List SvCondition}
    (h : checkSvConditions tabs tables conds = .ok conds') (hagg : ∀ cond ∈ conds', cond.isAgg = false) :
    checkClause tabs tables (conds.map (·.cond)) = .ok (conds'.map (·.cond)) := by
  obtain ⟨allCols, hcols, hconds⟩ := bind_eq_ok.mp h
  refine bind_eq_ok.mpr ⟨allCols, hcols, mapM_eq_ok_iff.mpr ?_⟩
  rw [List.forall₂_map_left_iff, List.forall₂_map_right_iff]
  have hpairs := mapM_eq_ok_iff.mp hconds
  clear hconds h
  induction hpairs with
  | nil => exact .nil
  | cons hcond hrest ih =>
    obtain ⟨hfirst, htail⟩ := List.forall_mem_cons.mp hagg
    exact .cons (clause_of_checkSvCondition hcond hfirst) (ih htail)

theorem grouped_of_checkGrouped {groupByCols : List TabCol} {cond : SvCondition}
    (h : checkGrouped groupByCols cond = .ok ()) :
    (cond.isLhsAgg = false → grouped groupByCols cond.cond.lhsCol = true) ∧
      (cond.isRhsAgg = false → ∀ rhsCol, cond.cond.rhs = .col rhsCol → grouped groupByCols rhsCol = true) := by
  obtain ⟨⟨⟩, hlhs, hrest⟩ := bind_eq_ok.mp h
  have hlhs := require_eq_ok hlhs
  constructor
  · intro hagg
    rwa [hagg, Bool.false_or] at hlhs
  · intro hagg rhsCol hrhs
    split at hrest
    · cases hrest
    · rw [hrhs] at hrest
      have hrhs := require_eq_ok hrest
      rwa [hagg, Bool.false_or] at hrhs

theorem mem_of_orderByCol {aggFuncs : List AggFunc} {col : Ast.Col} {orderCol : OrderByCol}
    (h : orderByCol allCols aggFuncs col = .ok orderCol) (hagg : orderCol.isAgg = true) : orderCol.agg ∈ aggFuncs := by
  unfold orderByCol at h
  split at h
  · next agg hfind =>
    cases h
    exact List.mem_of_find?_eq_some hfind
  · obtain ⟨col, -, h⟩ := bind_eq_ok.mp h
    cases h
    cases hagg

/-- Something is selected: all columns of the tables, if the SELECT list is empty. -/
theorem selected_of_selectCols {map : NameMap} {cols : List Ast.Col} {aggFuncs : List Ast.AggFunc} {selCols : List TabCol}
    {aggs : List AggFunc} (hne : allCols ≠ [])
    (hcols : selectCols map allCols cols (cols.isEmpty && aggFuncs.isEmpty) = .ok selCols)
    (haggs : aggFuncs.mapM (fun agg => checkAgg allCols (convertAgg agg agg.aliasName)) = .ok aggs) :
    selCols ≠ [] ∨ aggs ≠ [] := by
  have hlength := (mapM_eq_ok_iff.mp haggs).length_eq
  unfold selectCols at hcols
  split at hcols
  · cases hcols
    exact .inl (mt List.map_eq_nil_iff.mp hne)
  · next hlist =>
    have hlength' := (mapM_eq_ok_iff.mp hcols).length_eq
    rw [Bool.and_eq_true, List.isEmpty_iff_length_eq_zero, List.isEmpty_iff_length_eq_zero, hlength, hlength',
      not_and_or] at hlist
    exact hlist.imp (mt List.length_eq_zero_iff.mpr) (mt List.length_eq_zero_iff.mpr)

section
variable {cols : List Ast.Col} {aggFuncs : List Ast.AggFunc} {refs : List Ast.TableRef} {conds : List Ast.BinaryExpr}
  {jointree : List Ast.JoinExpr} {order : Option Ast.OrderBy} {groupBy : Option (List Ast.Col)}
  {having : Option (List Ast.BinaryExpr)} {limit : Option (BitVec 32)} {select : SelectAnalysis}

variable (tabs cols aggFuncs refs jointree order groupBy) in
/-- The steps of the check that lead to a SELECT. -/
structure Steps (select : SelectAnalysis) (allCols : List TableCol) : Prop where
  joined : joinTables tabs (refs.map (·.tabName)) jointree = .ok select.tables
  joins : select.jointree = jointree
  found : getAllCols tabs select.tables = .ok allCols
  selected : selectCols (aliasToTable (aliases refs jointree)) allCols cols (cols.isEmpty && aggFuncs.isEmpty) =
    .ok select.cols
  aggs : aggFuncs.mapM (fun agg => checkAgg allCols (convertAgg agg agg.aliasName)) = .ok select.aggFuncs
  ordered : ((order.map (·.cols)).getD []).mapM (orderByCol allCols select.aggFuncs) = .ok select.orderByCols
  clause : ∃ svConds, checkSvConditions tabs select.tables svConds = .ok select.conds
  grouping : select.hasGroupBy = groupBy.isSome
  groups : checkGroups groupBy.isSome select.cols select.groupByCols select.havingConds = .ok ()
  plain : checkPlain select.conds = .ok ()

theorem steps_of_doSelect (h : doSelect tabs cols aggFuncs refs conds jointree order groupBy having limit = .ok select) :
    ∃ allCols, Steps tabs cols aggFuncs refs jointree order groupBy select allCols := by
  obtain ⟨tables, htables, h⟩ := bind_eq_ok.mp h
  obtain ⟨allCols, hallCols, h⟩ := bind_eq_ok.mp h
  obtain ⟨selCols, hselCols, h⟩ := bind_eq_ok.mp h
  obtain ⟨aggs, haggs, h⟩ := bind_eq_ok.mp h
  obtain ⟨groupByCols, -, h⟩ := bind_eq_ok.mp h
  obtain ⟨_, -, h⟩ := bind_eq_ok.mp h
  obtain ⟨havingConds, -, h⟩ := bind_eq_ok.mp h
  obtain ⟨orderByCols, horderByCols, h⟩ := bind_eq_ok.mp h
  obtain ⟨svConds, -, h⟩ := bind_eq_ok.mp h
  obtain ⟨clause, hclause, h⟩ := bind_eq_ok.mp h
  obtain ⟨⟨⟩, hgroups, h⟩ := bind_eq_ok.mp h
  obtain ⟨⟨⟩, hplain, h⟩ := bind_eq_ok.mp h
  cases h
  exact ⟨allCols, htables, rfl, hallCols, hselCols, haggs, horderByCols, ⟨svConds, hclause⟩, rfl, hgroups, hplain⟩

theorem Steps.checked (h : Steps tabs cols aggFuncs refs jointree order groupBy select allCols) : select.Checked tabs := by
  have hplain : ∀ cond ∈ select.conds, cond.isAgg = false := fun cond hcond =>
    (Bool.not_eq_true' _).mp (require_eq_ok (of_mem_forM h.plain cond hcond))
  have hgroups : select.hasGroupBy = true → select.cols ⊆ select.groupByCols ∧
      ∀ cond ∈ select.havingConds, checkGrouped select.groupByCols cond = .ok () := by
    intro hsome
    have hgroups := h.groups
    rw [checkGroups, ← h.grouping, if_pos hsome] at hgroups
    obtain ⟨⟨⟩, hcols, hhaving⟩ := bind_eq_ok.mp hgroups
    have hcols := List.all_eq_true.mp (require_eq_ok hcols)
    exact ⟨fun col hcol => List.contains_iff_mem.mp (hcols col hcol), of_mem_forM hhaving⟩
  constructor
  case known =>
    intro tab htab
    obtain ⟨tabMeta, hmeta, -⟩ := known_of_getAllCols h.found tab htab
    exact ⟨tabMeta, hmeta⟩
  case joined =>
    rw [h.joins]
    exact (mem_joinTables h.joined).2
  case selected => exact fun hne => selected_of_selectCols (ne_nil_of_getAllCols h.found hne) h.selected h.aggs
  case plain => exact hplain
  case checked =>
    obtain ⟨svConds, hconds⟩ := h.clause
    exact ⟨_, checkClause_of_checkSvConditions hconds hplain⟩
  case cols => exact fun hsome => (hgroups hsome).1
  case having => exact fun hsome cond hcond => grouped_of_checkGrouped ((hgroups hsome).2 cond hcond)
  case ordered =>
    intro orderCol horderCol hagg
    obtain ⟨col, -, hcol⟩ := of_mem_mapM h.ordered horderCol
    exact mem_of_orderByCol hcol hagg

end

/-- Only a SELECT is taken for one. -/
theorem select_of_doAnalyze {node : Ast.TreeNode} {select : SelectAnalysis}
    (h : doAnalyze tabs node = .ok (.select select)) :
    ∃ cols aggFuncs refs conds jointree order groupBy having limit allCols,
      node = .selectStmt cols aggFuncs refs conds jointree order groupBy having limit ∧
        Steps tabs cols aggFuncs refs jointree order groupBy select allCols := by
  cases node with
  | selectStmt cols aggFuncs refs conds jointree order groupBy having limit =>
    obtain ⟨checked, hchecked, h⟩ := bind_eq_ok.mp h
    cases h
    obtain ⟨allCols, hsteps⟩ := steps_of_doSelect hchecked
    exact ⟨cols, aggFuncs, refs, conds, jointree, order, groupBy, having, limit, allCols, rfl, hsteps⟩
  | updateStmt tabName setClauses conds =>
    obtain ⟨_, -, h⟩ := bind_eq_ok.mp h
    obtain ⟨_, -, h⟩ := bind_eq_ok.mp h
    obtain ⟨_, -, h⟩ := bind_eq_ok.mp h
    cases h
  | deleteStmt tabName conds =>
    obtain ⟨_, -, h⟩ := bind_eq_ok.mp h
    obtain ⟨_, -, h⟩ := bind_eq_ok.mp h
    cases h
  | insertStmt tabName vals =>
    obtain ⟨_, -, h⟩ := bind_eq_ok.mp h
    cases h
  | _ => cases h

/-- What the check of a SELECT has seen to when it lets it through. -/
theorem checked_of_doAnalyze {node : Ast.TreeNode} {select : SelectAnalysis}
    (h : doAnalyze tabs node = .ok (.select select)) : select.Checked tabs := by
  obtain ⟨_, _, _, _, _, _, _, _, _, _, -, hsteps⟩ := select_of_doAnalyze h
  exact hsteps.checked

/-- `SELECT x, COUNT(*) FROM a GROUP BY x HAVING COUNT(*) > 0`. -/
def groupTree : Ast.TreeNode :=
  .selectStmt [⟨"", "x", ""⟩] [⟨.count, none, ""⟩] [⟨"a", ""⟩] [] [] none (some [⟨"", "x", ""⟩])
    (some [⟨.aggFunc ⟨.count, none, ""⟩, .gt, .value (.intLit 0)⟩]) none

def groupSelect : SelectAnalysis where
  tables := ["a"]
  jointree := []
  tableToAlias := ∅
  aggFuncs := [noAgg]
  cols := [⟨"a", "x"⟩]
  isSelectAll := false
  hasGroupBy := true
  groupByCols := [⟨"a", "x"⟩]
  havingConds := [⟨⟨⟨noCol, .gt, .val (.int 0) none⟩, true, false⟩, noAgg, noAgg, true⟩]
  hasOrderBy := false
  orderByCols := []
  orderByDirections := []
  limitVal := -1
  conds := []

theorem checked_groupTree : groupSelect.Checked Query.pairTabs :=
  checked_of_doAnalyze (rfl : doAnalyze Query.pairTabs groupTree = .ok (.select groupSelect))

/-- A SELECT of the parser has tables. -/
theorem tables_ne_nil {node : Ast.TreeNode} {isExplain : Bool} {select : SelectAnalysis}
    (htree : Ast.ParseTree.WellFormed ⟨node, isExplain⟩) (h : doAnalyze tabs node = .ok (.select select)) :
    select.tables ≠ [] := by
  obtain ⟨_, _, _, _, _, _, _, _, _, _, rfl, hsteps⟩ := select_of_doAnalyze h
  cases htree with
  | stmt hnode =>
    cases hnode with
    | dml hnode =>
      cases hnode with
      | select hcols haggs hrefs =>
        obtain ⟨ref, href⟩ := List.exists_mem_of_ne_nil _ hrefs.1
        exact List.ne_nil_of_mem ((mem_joinTables hsteps.joined).1 (List.mem_map_of_mem href))

/-- A SELECT without aggregate functions that the parser and the check have let through is one that the planner can take: its
tables and the columns of its WHERE clause are there. -/
theorem accepted_of_yyparse {env : Env} {lexemes : List Ast.Lexeme} {node : Ast.TreeNode} {isExplain : Bool}
    {rest : List (LrParser.Token Ast.SemValue)} {select : SelectAnalysis} (onConds : List Condition)
    (hvalid : ∀ lexeme ∈ lexemes, lexeme.Valid)
    (hparse : Ast.yyparse lexemes = some (.accepted (.tree (some ⟨node, isExplain⟩)) rest))
    (hcheck : doAnalyze env.tabs node = .ok (.select select)) (hagg : select.aggFuncs = [])
    (hliterals : ∀ cond ∈ select.conds, ∀ f raw, cond.cond.rhs = .val (.float f) raw → floatIsNaN f = false)
    (hslots : ∀ tab ∈ select.tables, (env.view tab).rids.Nodup)
    (hstored : ∀ tab ∈ select.tables, ∀ tabMeta, env.tabs tab = some tabMeta →
      ∀ rid rec_, (env.view tab).getRecord rid = some rec_ → tabMeta.Stores rec_) :
    (select.query onConds).toQuery.Accepted env := by
  obtain ⟨tree, htree, hwf⟩ := Ast.wellFormed_of_yyparse hvalid hparse
  cases htree
  have hne := tables_ne_nil (hwf _ rfl) hcheck
  obtain ⟨_, _, _, _, _, _, _, _, _, _, -, hsteps⟩ := select_of_doAnalyze hcheck
  have hchecked := hsteps.checked
  constructor
  case tables => exact hne
  case cols => exact (hchecked.selected hne).resolve_right fun h => h hagg
  case known => exact hchecked.known
  case checked => exact hchecked.checked
  case literals =>
    intro cond hcond f raw hrhs
    obtain ⟨svCond, hsvCond, rfl⟩ := List.mem_map.mp hcond
    exact hliterals svCond hsvCond f raw hrhs
  case slots => exact hslots
  case stored => exact hstored

/-- `SELECT x FROM a WHERE a.x = 1`. -/
def whereTree : Ast.TreeNode :=
  .selectStmt [⟨"", "x", ""⟩] [] [⟨"a", ""⟩] [⟨.col ⟨"a", "x", ""⟩, .eq, .value (.intLit 1)⟩] [] none none none none

def whereText : List Ast.Lexeme :=
  [⟨273, .none⟩, ⟨306, .str "x"⟩, ⟨268, .none⟩, ⟨306, .str "a"⟩, ⟨270, .none⟩, ⟨306, .str "a"⟩, ⟨46, .none⟩, ⟨306, .str "x"⟩,
    ⟨61, .none⟩, ⟨308, .int 1⟩, ⟨59, .none⟩]

def whereSelect : SelectAnalysis :=
  { groupSelect with
    aggFuncs := []
    hasGroupBy := false
    groupByCols := []
    havingConds := []
    conds := [⟨⟨⟨⟨"a", "x"⟩, .eq, .val (.int 1) (some (wordBytes 1))⟩, false, false⟩, noAgg, noAgg, true⟩] }

private theorem valid_whereText : ∀ lexeme ∈ whereText, lexeme.Valid := by
  have hident : ∀ name : String, name ≠ "" → (⟨306, .str name⟩ : Ast.Lexeme).Valid := fun name hname =>
    Ast.valid_of_terminal .IDENTIFIER rfl ⟨name, hname, rfl⟩
  simp only [whereText, List.forall_mem_cons]
  refine ⟨Ast.valid_of_terminal .SELECT rfl trivial, hident _ (by decide), Ast.valid_of_terminal .FROM rfl trivial,
    hident _ (by decide), Ast.valid_of_terminal .WHERE rfl trivial, hident _ (by decide),
    Ast.valid_of_terminal .dot rfl trivial, hident _ (by decide), Ast.valid_of_terminal .eq rfl trivial,
    Ast.valid_of_terminal .VALUE_INT rfl ⟨1, rfl⟩, Ast.valid_of_terminal .semi rfl trivial, List.forall_mem_nil _⟩

private theorem wellFormed_whereTree : Ast.ParseTree.WellFormed ⟨whereTree, false⟩ := by
  have hname : ∀ tab name : String, name ≠ "" → Ast.Col.WellFormed ⟨tab, name, ""⟩ := fun _ _ hname => hname
  have hcond : Ast.IsCond ⟨.col ⟨"a", "x", ""⟩, .eq, .value (.intLit 1)⟩ := .col (hname _ _ (by decide)) rfl (.value _)
  have htab : Ast.TableRef.WellFormed ⟨"a", ""⟩ := (by decide : "a" ≠ "")
  have hnone : ∀ {α : Type} {P : α → Prop}, ∀ a ∈ (none : Option α), P a := fun _ h => absurd h (Option.not_mem_none _)
  exact .stmt (.dml (.select (List.forall_mem_singleton.mpr (hname _ _ (by decide))) (List.forall_mem_nil _)
    ⟨List.cons_ne_nil _ _, List.forall_mem_singleton.mpr htab⟩ (List.forall_mem_singleton.mpr hcond)
    (List.forall_mem_nil _) hnone hnone hnone hnone)) false

private theorem yyparse_whereText : Ast.yyparse whereText = some (.accepted (.tree (some ⟨whereTree, false⟩)) []) := by
  have htree : ∀ t ∈ some (⟨whereTree, false⟩ : Ast.ParseTree), t.WellFormed := by
    rintro _ ⟨⟩
    exact wellFormed_whereTree
  have hwrites := (Ast.writes_tree htree).mono (by decide : (Ast.treePhrase (some ⟨whereTree, false⟩)).room ≤ 198)
  exact @Ast.yyparse_of_derives whereText [] _ valid_whereText hwrites

/-- `SELECT x FROM a WHERE a.x = 1` from the text to the planner. -/
theorem accepted_whereText : (whereSelect.query []).toQuery.Accepted Query.pairEnv := by
  refine accepted_of_yyparse [] valid_whereText yyparse_whereText
    (rfl : doAnalyze Query.pairTabs whereTree = .ok (.select whereSelect)) rfl
    ?_ ?_ ?_
  · intro cond hcond f raw hrhs
    rw [List.mem_singleton.mp hcond] at hrhs
    cases hrhs
  · exact fun tab _ => List.nodup_singleton _
  · intro tab htab tabMeta hmeta rid rec_ hrec
    rw [List.mem_singleton.mp htab] at hmeta
    cases hmeta
    cases hrec
    decide

/-! ### The JOIN clauses -/

end
end Analyze
end Rmdb
