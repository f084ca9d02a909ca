import Rmdb.Execution.RunPlan
import Rmdb.Execution.ScanAgreement
import Rmdb.Lib.Cross

/-! What a SELECT asks for, and when the plan gives it. -/
namespace Rmdb

open Product Program

/-! ### The meaning of a SELECT -/

/-- A condition holds if its columns are there and meet it. -/
def Condition.holdsOn (cond : Condition) (tuple : Tuple) : Bool :=
  match getCell tuple cond.lhsCol with
  | none => false
  | some lhs =>
    match cond.rhs with
    | .val val _ => Value.meets cond.op (cellValue lhs) val
    | .col rhsCol =>
      match getCell tuple rhsCol with
      | none => false
      | some rhs => Value.meets cond.op (cellValue lhs) (cellValue rhs)

/-- The record has the bytes of its columns, of numbers four. -/
def TabMeta.Stores (tabMeta : TabMeta) (rec_ : Bytes) : Prop :=
  ∀ col ∈ tabMeta.cols, col.offset + col.len ≤ rec_.length ∧ (col.type ≠ .string → col.len = 4)

instance (tabMeta : TabMeta) (rec_ : Bytes) : Decidable (tabMeta.Stores rec_) :=
  inferInstanceAs (Decidable (∀ col ∈ tabMeta.cols, _))

/-- A record of a table. -/
abbrev Row := String × Bytes

namespace Env

/-- The rows of a table that a sequential scan sees. -/
def records (env : Env) (tab : String) : List Bytes := (env.view tab).rids.filterMap (env.view tab).getRecord

def tuples (env : Env) (tab : String) : List Tuple :=
  match env.tabs tab with
  | none => []
  | some tabMeta => (env.records tab).map (tabMeta.tuple tab)

/-- The cross product of tables. -/
def product (env : Env) (tables : List String) : List Tuple :=
  (cross (tables.map env.tuples)).map List.flatten

def rows (env : Env) (tab : String) : List Row := (env.records tab).map (tab, ·)

def tuple (env : Env) (row : Row) : Tuple :=
  match env.tabs row.1 with
  | some tabMeta => tabMeta.tuple row.1 row.2
  | none => []

def HasCol (env : Env) (col : TabCol) : Prop :=
  ∃ tabMeta, env.tabs col.tabName = some tabMeta ∧ ∃ c ∈ tabMeta.cols, c.name = col.colName

/-- The type of a column in the catalog. -/
def colType (env : Env) (col : TabCol) : Option ColType :=
  (env.tabs col.tabName).bind fun tabMeta => (tabMeta.cols.find? (·.name = col.colName)).map (·.type)

end Env

namespace Query

def conjuncts (query : Query) : List Condition := query.conds ++ if query.hasJoin then query.onConds else []

/-- The rows of the cross product that satisfy every conjunct, projected. -/
def answer (env : Env) (query : Query) : List Tuple :=
  ((env.product query.tables).filter fun tuple => query.conjuncts.all (·.holdsOn tuple)).map
    (projectTuple query.cols)

/-- What the parser, the semantic check and the files of the tables have seen to: there are tables and a SELECT list,
the tables exist, and so do the columns of the WHERE clause, whose literals are no NaNs; a slot is listed once, and records
store their columns. -/
structure Accepted (env : Env) (query : Query) : Prop where
  tables : query.tables ≠ []
  cols : query.cols ≠ []
  known : ∀ tab ∈ query.tables, ∃ tabMeta, env.tabs tab = some tabMeta
  checked : ∃ conds, Analyze.checkClause env.tabs query.tables conds = .ok query.conds
  literals : ∀ cond ∈ query.conds, ∀ f raw, cond.rhs = .val (.float f) raw → floatIsNaN f = false
  slots : ∀ tab ∈ query.tables, (env.view tab).rids.Nodup
  stored : ∀ tab ∈ query.tables, ∀ tabMeta, env.tabs tab = some tabMeta →
    ∀ rid rec_, (env.view tab).getRecord rid = some rec_ → tabMeta.Stores rec_

/-- The executors return the rows that the query asks for, each as often. -/
def Preserved (env : Env) (query : Query) : Prop :=
  ∃ out, runSelect env query = .ok out ∧ out.Perm (query.answer env)

/-! ### What the plan does with the conditions -/

/-- JOIN clauses count from two tables on. -/
def joins (query : Query) : Bool := query.hasJoin && query.tables.length ≠ 1

/-- A condition between two tables. -/
def crossTable (cond : Condition) : Bool :=
  match cond.rhs with
  | .val _ _ => false
  | .col rhsCol => cond.lhsCol.tabName ≠ rhsCol.tabName

/-- A condition between two of the tables. -/
def between (tabs : List String) (cond : Condition) : Bool :=
  crossTable cond && (Planner.condCols cond).all fun col => tabs.contains col.tabName

/-- The conditions that a table is handed: its literals, and the first table also every condition between two columns of
one table, whichever it is. -/
def handed (query : Query) (tab : String) : List Condition :=
  query.conds.filter fun cond => !crossTable cond &&
    if Planner.isColCond cond then query.tables.head? = some tab else cond.lhsCol.tabName = tab

/-- The conditions that the joins draw on. -/
def joinConds (query : Query) : List Condition := if query.hasJoin then query.onConds else query.conds.filter crossTable

/-- The conditions that reach an executor: those of the WHERE clause within one table, and those between
two tables of the WHERE clause or, if there are JOIN clauses, of these. -/
def Applied (query : Query) (cond : Condition) : Prop :=
  if crossTable cond then
    cond ∈ (if query.hasJoin then query.onConds else query.conds) ∧
      ∀ col ∈ Planner.condCols cond, col.tabName ∈ query.tables
  else cond ∈ query.conds

/-- The order in which the tables are joined. -/
def order (env : Env) (query : Query) : List String :=
  if query.hasJoin && Planner.useGreedy env.rowCount query.tables query.onConds then
    (Planner.greedyOrder env.rowCount (query.tables.map fun tab => (tab, .scan tab none [] []))).map (·.1)
  else query.tables

/-! ### The rows on their way up -/

/-- The conditions between the tables hold. -/
def meetsAll (cells : Row → Tuple) (conds : List Condition) (tabs : List String) (c : List Row) : Bool :=
  conds.all fun cond => !between tabs cond || cond.holdsOn (c.flatMap cells)

/-- The combinations of rows that the joins of the tables keep. -/
def joined (rows : String → List Row) (cells : Row → Tuple) (conds : List Condition) (tabs : List String) :
    List (List Row) := (cross (tabs.map rows)).filter (meetsAll cells conds tabs)

/-- The rows of a table that meet what it is handed. -/
def passed (env : Env) (query : Query) (tab : String) : List Row :=
  (env.rows tab).filter fun row => (query.handed tab).all (·.holdsOn (env.tuple row))

def combined (env : Env) (query : Query) (tabs : List String) : List (List Row) :=
  joined (query.passed env) env.tuple query.joinConds tabs

/-- A filter below a join that rejects all records there are returns a null pointer. -/
structure PassesNull (env : Env) (query : Query) (tab : String) : Prop where
  joins : query.joins = true
  handed : query.handed tab ≠ []
  records : env.records tab ≠ []
  passed : query.passed env tab = []

/-- Whether the scan behind these tables is started: the first one is, a further one if those before return something. -/
def Starts (env : Env) (query : Query) (before : List String) : Prop :=
  before = [] ∨ query.combined env before ≠ [] ∨ ∃ tab, before = [tab] ∧ query.PassesNull env tab

/-! ### When the scans are right -/

/-- Up to one that fails, the conditions on a record are about columns of the table and read as they mean. -/
def ReadsRight (tab : String) (tabMeta : TabMeta) (conds : List Condition)
    (misread : TabMeta → Bytes → Condition → Prop) (rec_ : Bytes) : Prop :=
  ∀ cond, ComesTo (·.holdsOn (tabMeta.tuple tab rec_)) conds cond →
    cond.within tab = true ∧ cond.Alike tabMeta rec_ ∧ ¬misread tabMeta rec_ cond

/-- The conditions bound a range of the index that starts inside, and a row that meets them has one entry there. -/
structure IndexFits (tab : String) (tabMeta : TabMeta) (index : IndexMeta) (ih : IxIndexHandle Bytes)
    (leaves : List (IxNodeHandle Bytes)) (view : TableView) (conds : List Condition) (lower upper : Option Bytes) :
    Prop where
  ofTable : index.OfTable tabMeta
  chain : IxIndexHandle.LeafChain (NaNFree index.ixCols) index.compare ih leaves
  nodup : (leaves.flatMap (·.entries)).Nodup
  range : ∃ held, IndexScanExecutor.heldConds tab tabMeta conds = .ok held ∧
    IndexScanExecutor.SearchRange (IndexScanExecutor.literalOn tab held) index.cols lower upper
  starts : IxIndexHandle.StartsInside index.compare (leaves.flatMap (·.entries)) lower upper
  alike : ∀ key rid rec_, ih.Reached index.compare leaves lower upper (key, rid) → view.getRecord rid = some rec_ →
    ∀ cond, ComesTo (·.holdsOn (tabMeta.tuple tab rec_)) conds cond → cond.Alike tabMeta rec_
  found : ∀ rid rec_, view.getRecord rid = some rec_ → (conds.all (·.holdsOn (tabMeta.tuple tab rec_)) = true) →
    if rid ∈ view.rids then ∃! key, ih.Reached index.compare leaves lower upper (key, rid)
    else ∀ key, ¬ih.Reached index.compare leaves lower upper (key, rid)

/-- The scan of a table and the filter above it keep the rows that meet what the table is handed. -/
structure ScanFits (env : Env) (query : Query) (tab : String) (tabMeta : TabMeta) : Prop where
  /-- Below a join the filter alone has the conditions. -/
  filter : query.joins = true → ∀ rec_ ∈ env.records tab,
    ReadsRight tab tabMeta (query.handed tab) Condition.MisreadTrimmed rec_
  seqScan : query.joins = false → Planner.getIndexCols tab tabMeta (query.handed tab) = none →
    ∀ rec_ ∈ env.records tab, ReadsRight tab tabMeta (query.handed tab) Condition.Misread rec_
  /-- The filter above a sequential scan checks what has passed once more. -/
  again : query.joins = false → Planner.getIndexCols tab tabMeta (query.handed tab) = none →
    ∀ rec_ ∈ env.records tab, (query.handed tab).all (·.holdsOn (tabMeta.tuple tab rec_)) = true →
      ∀ cond ∈ query.handed tab, ¬cond.MisreadTrimmed tabMeta rec_
  indexScan : ∀ names, Planner.getIndexCols tab tabMeta (query.handed tab) = some names →
    ∃ index ih leaves lower upper, IndexScanExecutor.matchIndex tabMeta names = .ok index ∧
      env.ihs (getIndexName tab index) = some ih ∧
      IndexFits tab tabMeta index ih leaves (env.view tab) (if query.joins then [] else query.handed tab) lower upper

/-- The columns of the condition are there and have one type. -/
def SameType (env : Env) (cond : Condition) : Prop :=
  ∀ rhsCol, cond.rhs = .col rhsCol → ∃ type, env.colType cond.lhsCol = some type ∧ env.colType rhsCol = some type

/-- The SELECT is one that the plan gets right. -/
structure Planned (env : Env) (query : Query) : Prop where
  /-- No table is listed twice: a column is looked up by the names of its table and itself. -/
  nodup : query.tables.Nodup
  selected : ∀ col ∈ query.cols, col.tabName ∈ query.tables ∧ env.HasCol col
  /-- The projections above the scans take the columns of the JOIN clauses along. -/
  projected : query.isSelectAll = false → ∀ cond ∈ query.onConds, ∀ col ∈ Planner.condCols cond,
    col.tabName ∈ query.tables → env.HasCol col
  within : ∀ cond ∈ query.conds, ∀ col ∈ Planner.condCols cond, col.tabName ∈ query.tables
  scans : ∀ before tab after, query.order env = before ++ tab :: after → query.Starts env before →
    ∀ tabMeta, env.tabs tab = some tabMeta → ScanFits env query tab tabMeta
  /-- A null pointer meets no row on the other side of its join. -/
  nulls : ∀ before tab after, query.order env = before ++ tab :: after → query.PassesNull env tab →
    if before = [] then ∀ next ∈ after.head?, env.records next = [] else query.combined env before = []
  /-- The joins compare columns of one type. -/
  compared : ∀ before tab after, query.order env = before ++ tab :: after → ∀ c ∈ query.combined env before,
    ∀ row ∈ query.passed env tab, ∀ cond, ComesTo (·.holdsOn ((c ++ [row]).flatMap env.tuple))
      (query.joinConds.filter (Planner.connects tab before)) cond → SameType env cond
  /-- What the plan leaves out holds anyway. -/
  implied : ∀ tuple ∈ env.product query.tables,
    (∀ cond ∈ query.conjuncts, query.Applied cond → cond.holdsOn tuple = true) →
      ∀ cond ∈ query.conjuncts, cond.holdsOn tuple = true

end Query
end Rmdb
