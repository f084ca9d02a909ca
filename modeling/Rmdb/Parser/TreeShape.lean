import Rmdb.Parser.Grammar

/-! The shape of the trees that the rules of the grammar make, and that every rule can read the values of its symbols. -/
namespace Rmdb

def SvCompOp.isComparison : SvCompOp → Bool
  | .eq | .ne | .lt | .gt | .le | .ge => true
  | .add | .sub | .mul | .div => false

/-- Some things, and all of them `P`. -/
def SomeOf {α : Type} (P : α → Prop) (xs : List α) : Prop := xs ≠ [] ∧ ∀ x ∈ xs, P x

namespace Ast

/-- Only CHAR has a length of its own. -/
def TypeLen.WellFormed (typeLen : TypeLen) : Prop :=
  typeLen.type = .string ∨ (typeLen.type = .int ∨ typeLen.type = .float) ∧ typeLen.len = 4

structure ColDef.WellFormed (field : ColDef) : Prop where
  colName : field.colName ≠ ""
  typeLen : field.typeLen.WellFormed

/-- The name of the table may be left out, and there may be no alias. -/
def Col.WellFormed (col : Col) : Prop := col.colName ≠ ""

def TableRef.WellFormed (ref : TableRef) : Prop := ref.tabName ≠ ""

/-- Only `COUNT` goes without a column. -/
structure AggFunc.WellFormed (agg : AggFunc) : Prop where
  count : agg.col = none → agg.funcType = .count
  col : ∀ col ∈ agg.col, col.WellFormed

/-- There is a direction for every column. -/
structure OrderBy.WellFormed (order : OrderBy) : Prop where
  cols : SomeOf Col.WellFormed order.cols
  orderbyDirs : order.orderbyDirs.length = order.cols.length

mutual

/-- Values, columns, aggregate functions and subqueries, with arithmetic between them. -/
inductive IsExpr : TreeNode → Prop
  | value (val : Value) : IsExpr (.value val)
  | col {col : Col} (hcol : col.WellFormed) : IsExpr (.col col)
  | aggFunc {agg : AggFunc} (hagg : agg.WellFormed) : IsExpr (.aggFunc agg)
  | binary {op : SvCompOp} (hop : op.isComparison = false) {lhs : TreeNode} (hlhs : IsExpr lhs) {rhs : TreeNode}
      (hrhs : IsExpr rhs) : IsExpr (.binary ⟨lhs, op, rhs⟩)
  | dml {node : TreeNode} (hnode : IsDml node) : IsExpr node

/-- A comparison with a column or an aggregate function on its left. -/
inductive IsCond : BinaryExpr → Prop
  | col {col : Col} (hcol : col.WellFormed) {op : SvCompOp} (hop : op.isComparison = true) {rhs : TreeNode}
      (hrhs : IsExpr rhs) : IsCond ⟨.col col, op, rhs⟩
  | aggFunc {agg : AggFunc} (hagg : agg.WellFormed) {op : SvCompOp} (hop : op.isComparison = true) {rhs : TreeNode}
      (hrhs : IsExpr rhs) : IsCond ⟨.aggFunc agg, op, rhs⟩

inductive IsDml : TreeNode → Prop
  | insert {tabName : String} (htab : tabName ≠ "") {vals : List Value} (hvals : vals ≠ []) :
    IsDml (.insertStmt tabName vals)
  | delete {tabName : String} (htab : tabName ≠ "") {conds : List BinaryExpr} (hconds : ∀ cond ∈ conds, IsCond cond) :
    IsDml (.deleteStmt tabName conds)
  | update {tabName : String} (htab : tabName ≠ "") {clauses : List SetClause} (hclauses : clauses ≠ [])
      (hnames : ∀ clause ∈ clauses, clause.colName ≠ "") (hvals : ∀ clause ∈ clauses, IsExpr clause.val)
      {conds : List BinaryExpr} (hconds : ∀ cond ∈ conds, IsCond cond) : IsDml (.updateStmt tabName clauses conds)
  | select {cols : List Col} {aggs : List AggFunc} {refs : List TableRef} {conds : List BinaryExpr} {joins : List JoinExpr}
      {orderby : Option OrderBy} {groupby : Option (List Col)} {having : Option (List BinaryExpr)}
      {limit : Option (BitVec 32)} (hcols : ∀ col ∈ cols, col.WellFormed) (haggs : ∀ agg ∈ aggs, agg.WellFormed)
      (hrefs : SomeOf TableRef.WellFormed refs) (hconds : ∀ cond ∈ conds, IsCond cond) (hjoins : ∀ join ∈ joins, IsJoin join)
      (horderby : ∀ order ∈ orderby, order.WellFormed) (hgroupby : ∀ cols ∈ groupby, SomeOf Col.WellFormed cols)
      (hhaving : ∀ conds ∈ having, conds ≠ []) (hhavingConds : ∀ conds ∈ having, ∀ cond ∈ conds, IsCond cond) :
    IsDml (.selectStmt cols aggs refs conds joins orderby groupby having limit)

/-- Only inner joins and semi joins are written in the grammar. -/
inductive IsJoin : JoinExpr → Prop
  | mk {right : String} (hright : right ≠ "") (rightAlias : String) {conds : List BinaryExpr} {type : JoinType}
      (htype : type = .inner ∨ type = .semi) (hnonempty : conds ≠ []) (hconds : ∀ cond ∈ conds, IsCond cond) :
    IsJoin ⟨right, rightAlias, conds, type⟩

end

structure SetClause.WellFormed (clause : SetClause) : Prop where
  colName : clause.colName ≠ ""
  val : IsExpr clause.val

inductive IsStmt : TreeNode → Prop
  | showTables : IsStmt .showTables
  | txnBegin : IsStmt .txnBegin
  | txnCommit : IsStmt .txnCommit
  | txnAbort : IsStmt .txnAbort
  | txnRollback : IsStmt .txnRollback
  | createTable {tabName : String} (htab : tabName ≠ "") {fields : List ColDef} (hfields : SomeOf ColDef.WellFormed fields) :
    IsStmt (.createTable tabName fields)
  | dropTable {tabName : String} (htab : tabName ≠ "") : IsStmt (.dropTable tabName)
  | descTable {tabName : String} (htab : tabName ≠ "") : IsStmt (.descTable tabName)
  | createIndex {tabName : String} (htab : tabName ≠ "") {colNames : List String} (hnames : SomeOf (· ≠ "") colNames) :
    IsStmt (.createIndex tabName colNames)
  | dropIndex {tabName : String} (htab : tabName ≠ "") {colNames : List String} (hnames : ∀ name ∈ colNames, name ≠ "") :
    IsStmt (.dropIndex tabName colNames)
  | showIndex {tabName : String} (htab : tabName ≠ "") : IsStmt (.showIndex tabName)
  | setStmt (type : SetKnobType) (val : Bool) : IsStmt (.setStmt type val)
  | dml {node : TreeNode} (hnode : IsDml node) : IsStmt node

/-- `HELP` is not explained. -/
inductive ParseTree.WellFormed : ParseTree → Prop
  | help : WellFormed ⟨.help, false⟩
  | stmt {node : TreeNode} (hnode : IsStmt node) (isExplain : Bool) : WellFormed ⟨node, isExplain⟩

/-- The values of the tokens. -/
def Terminal.Holds : Terminal → SemValue → Prop
  | .IDENTIFIER, val => ∃ str, str ≠ "" ∧ .str str = val
  | .VALUE_STRING, val => ∃ str, .str str = val
  | .VALUE_INT, val => ∃ i, .int i = val
  | .VALUE_FLOAT, val => ∃ bits, .float bits = val
  | .VALUE_BOOL, val => ∃ b, .bool b = val
  | _, _ => True

/-- The values of the nonterminals. -/
def Nonterminal.Holds : Nonterminal → SemValue → Prop
  | .accept, _ => True
  | .start, val => ∃ tree : Option ParseTree, (∀ t ∈ tree, t.WellFormed) ∧ .tree tree = val
  | .stmt, val | .txnStmt, val | .dbStmt, val | .setStmt, val | .ddl, val => ∃ node, IsStmt node ∧ .node node = val
  | .dml, val => ∃ node, IsDml node ∧ .node node = val
  | .fieldList, val => ∃ fields, SomeOf ColDef.WellFormed fields ∧ .fields fields = val
  | .colNameList, val => ∃ names, SomeOf (· ≠ "") names ∧ .strs names = val
  | .field, val => ∃ field : ColDef, field.WellFormed ∧ .field field = val
  | .type, val => ∃ typeLen : TypeLen, typeLen.WellFormed ∧ .typeLen typeLen = val
  | .valueList, val => ∃ vals, vals ≠ [] ∧ .vals vals = val
  | .value, val => ∃ v, .val v = val
  | .condition, val => ∃ cond, IsCond cond ∧ .cond cond = val
  | .optWhereClause, val => ∃ conds, (∀ cond ∈ conds, IsCond cond) ∧ .conds conds = val
  | .whereClause, val => ∃ conds, SomeOf IsCond conds ∧ .conds conds = val
  | .col, val => ∃ col : Col, col.WellFormed ∧ .col col = val
  | .colList, val => ∃ cols, SomeOf Col.WellFormed cols ∧ .cols cols = val
  | .op, val => ∃ op : SvCompOp, op.isComparison = true ∧ .compOp op = val
  | .expr, val => ∃ node, IsExpr node ∧ .node node = val
  | .setClauses, val => ∃ clauses, SomeOf SetClause.WellFormed clauses ∧ .setClauses clauses = val
  | .setClause, val => ∃ clause : SetClause, clause.WellFormed ∧ .setClause clause = val
  | .selector, val => ∃ cols : List Col, (∀ col ∈ cols, col.WellFormed) ∧ .cols cols = val
  | .tableRefList, val => ∃ refs, SomeOf TableRef.WellFormed refs ∧ .tableRefs refs = val
  | .joinExprList, val => ∃ joins, (∀ join ∈ joins, IsJoin join) ∧ .joinexprs joins = val
  | .joinClause, val => ∃ join, IsJoin join ∧ .joinexpr join = val
  | .optOrderClause, val | .orderClause, val => ∃ orderby : Option OrderBy, (∀ order ∈ orderby, order.WellFormed) ∧
      .orderby orderby = val
  | .orderColList, val => ∃ list, SomeOf (fun item : Col × OrderByDir => item.1.WellFormed) list ∧ .orderColList list = val
  | .orderColWithDir, val => ∃ col dir, Col.WellFormed col ∧ .orderColWithDir col dir = val
  | .optAscDesc, val => ∃ dir, .orderbyDir dir = val
  | .setKnobType, val => ∃ type, .setKnobType type = val
  | .aggFuncList, val => ∃ aggs : List AggFunc, (∀ agg ∈ aggs, agg.WellFormed) ∧ .aggFuncs aggs = val
  | .aggFunc, val => ∃ agg : AggFunc, agg.WellFormed ∧ .aggFunc agg = val
  | .aggFuncType, val => ∃ type, .aggFuncType type = val
  | .optGroupByClause, val => ∃ groupby : Option (List Col), (∀ cols ∈ groupby, SomeOf Col.WellFormed cols) ∧
      .groupby groupby = val
  | .optHavingClause, val => ∃ having : Option (List BinaryExpr), (∀ conds ∈ having, SomeOf IsCond conds) ∧
      .having having = val
  | .optLimitClause, val => ∃ limit, .limit limit = val
  | .mixedSelector, val => ∃ cols aggs, ((∀ col ∈ cols, Col.WellFormed col) ∧ ∀ agg ∈ aggs, AggFunc.WellFormed agg) ∧
      .mixedSelector cols aggs = val
  | .tbName, val | .colName, val | .indexName, val => ∃ str, str ≠ "" ∧ .str str = val
  | .tableRef, val => ∃ ref : TableRef, ref.WellFormed ∧ .tableRef ref = val

def Symbol.Holds : Symbol → SemValue → Prop
  | .t terminal => terminal.Holds
  | .n nonterminal => nonterminal.Holds

/-- The action reads all values that the symbols can have, and makes a value of the left-hand side. -/
def Production.Typed (production : Production) : Prop :=
  ∀ vals, List.Forall₂ Symbol.Holds production.rhs vals → ∃ val, production.act vals = some val ∧ production.lhs.Holds val

/-! ### The rules make well-formed trees -/

instance : Inhabited SemValue := ⟨.none⟩

attribute [simp] Terminal.Holds Nonterminal.Holds Symbol.Holds copy

/-- A statement about all values that the symbols can have, one symbol after the other. -/
@[simp] def ForValues : List Symbol → (List SemValue → Prop) → Prop
  | [], P => P []
  | symbol :: symbols, P => ∀ val, symbol.Holds val → ForValues symbols fun vals => P (val :: vals)

theorem forValues {symbols : List Symbol} {P : List SemValue → Prop} (h : ForValues symbols P) :
    ∀ vals, List.Forall₂ Symbol.Holds symbols vals → P vals := by
  intro vals hvals
  induction hvals generalizing P with
  | nil => exact h
  | cons hval _ ih => exact ih (h _ hval)

theorem Production.typed_of_forValues {production : Production}
    (h : ForValues production.rhs fun vals => ∃ val, production.act vals = some val ∧ production.lhs.Holds val) :
    production.Typed :=
  forValues h

theorem forall_bool {P : SemValue → Prop} : (∀ val, Symbol.Holds (.t .VALUE_BOOL) val → P val) ↔ ∀ b, P (.bool b) :=
  ⟨fun h b => h _ ⟨b, rfl⟩, fun h _ ⟨_, heq⟩ => heq ▸ h _⟩

theorem forall_orderColWithDir {P : SemValue → Prop} :
    (∀ val, Symbol.Holds (.n .orderColWithDir) val → P val) ↔ ∀ col dir, col.WellFormed → P (.orderColWithDir col dir) :=
  ⟨fun h col dir hcol => h _ ⟨col, dir, hcol, rfl⟩, fun h _ ⟨_, _, hcol, heq⟩ => heq ▸ h _ _ hcol⟩

theorem forall_mixedSelector {P : SemValue → Prop} :
    (∀ val, Symbol.Holds (.n .mixedSelector) val → P val) ↔
      ∀ cols aggs, (∀ col ∈ cols, Col.WellFormed col) → (∀ agg ∈ aggs, AggFunc.WellFormed agg) →
        P (.mixedSelector cols aggs) :=
  ⟨fun h cols aggs hcols haggs => h _ ⟨cols, aggs, ⟨hcols, haggs⟩, rfl⟩,
    fun h _ ⟨_, _, hwf, heq⟩ => heq ▸ h _ _ hwf.1 hwf.2⟩

@[simp] theorem aggFunc_wellFormed_some {type : AggFuncType} {col : Col} {aliasName : String} :
    AggFunc.WellFormed ⟨type, some col, aliasName⟩ ↔ col.WellFormed :=
  ⟨fun h => h.col col rfl,
    fun h => ⟨fun hnone => (Option.some_ne_none col hnone).elim, fun _ hmem => Option.some.inj hmem ▸ h⟩⟩

@[simp] theorem aggFunc_wellFormed_none {type : AggFuncType} {aliasName : String} :
    AggFunc.WellFormed ⟨type, none, aliasName⟩ ↔ type = .count :=
  ⟨fun h => h.count rfl, fun h => ⟨fun _ => h, fun col hmem => (Option.some_ne_none col hmem.symm).elim⟩⟩

section
variable {α : Type} {P : α → Prop} {xs : List α}

theorem someOf_singleton {x : α} (hx : P x) : SomeOf P [x] := ⟨List.cons_ne_nil _ _, List.forall_mem_singleton.mpr hx⟩

theorem forall_mem_snoc (hxs : ∀ y ∈ xs, P y) {x : α} (hx : P x) : ∀ y ∈ xs ++ [x], P y :=
  List.forall_mem_append.mpr ⟨hxs, List.forall_mem_singleton.mpr hx⟩

theorem SomeOf.snoc (hxs : SomeOf P xs) {x : α} (hx : P x) : SomeOf P (xs ++ [x]) :=
  ⟨List.append_ne_nil_of_left_ne_nil hxs.1 _, forall_mem_snoc hxs.2 hx⟩

end

/-- A SELECT statement from the values of its clauses. -/
theorem isDml_selectStmt {cols : List Col} {aggs : List AggFunc}
    (hcols : ∀ col ∈ cols, col.WellFormed) (haggs : ∀ agg ∈ aggs, agg.WellFormed) {refs : List TableRef}
    (hrefs : SomeOf TableRef.WellFormed refs) {joins : List JoinExpr} (hjoins : ∀ join ∈ joins, IsJoin join)
    {conds : List BinaryExpr} (hconds : ∀ cond ∈ conds, IsCond cond) {groupby : Option (List Col)}
    (hgroupby : ∀ cols ∈ groupby, SomeOf Col.WellFormed cols) {having : Option (List BinaryExpr)}
    (hhaving : ∀ conds ∈ having, SomeOf IsCond conds) {orderby : Option OrderBy}
    (horderby : ∀ order ∈ orderby, order.WellFormed) (limit : Option (BitVec 32)) :
    IsDml (.selectStmt cols aggs refs conds joins orderby groupby having limit) :=
  .select hcols haggs hrefs hconds hjoins horderby hgroupby (fun conds hmem => (hhaving conds hmem).1)
    fun conds hmem => (hhaving conds hmem).2

theorem isDml_updateStmt {tabName : String} (htab : tabName ≠ "") {clauses : List SetClause}
    (hclauses : SomeOf SetClause.WellFormed clauses) {conds : List BinaryExpr} (hconds : ∀ cond ∈ conds, IsCond cond) :
    IsDml (.updateStmt tabName clauses conds) :=
  .update htab hclauses.1 (fun clause hmem => (hclauses.2 clause hmem).colName)
    (fun clause hmem => (hclauses.2 clause hmem).val) hconds

theorem isJoin_joinExpr {type : JoinType} (htype : type = .inner ∨ type = .semi) {ref : TableRef} (href : ref.WellFormed)
    {conds : List BinaryExpr} (hconds : SomeOf IsCond conds) : IsJoin ⟨ref.tabName, ref.aliasName, conds, type⟩ :=
  .mk href _ htype hconds.1 hconds.2

theorem orderBy_wellFormed {list : List (Col × OrderByDir)} (hlist : SomeOf (fun item => item.1.WellFormed) list) :
    OrderBy.WellFormed ⟨list.map Prod.fst, list.map Prod.snd⟩ :=
  ⟨⟨mt List.map_eq_nil_iff.mp hlist.1, List.forall_mem_map.mpr hlist.2⟩, by simp⟩

theorem startRules_typed : ∀ production ∈ startRules, production.Typed := by
  simp only [startRules, List.forall_mem_cons, List.not_mem_nil, false_imp_iff, implies_true, and_true]
  refine ⟨?_, ?_, ?_, ?_, ?_⟩ <;> apply Production.typed_of_forValues
  · simpa using fun node hnode => @ParseTree.WellFormed.stmt node hnode false
  · simpa using fun node hnode => @ParseTree.WellFormed.stmt node hnode true
  · simpa using ParseTree.WellFormed.help
  · simp
  · simp

theorem stmtRules_typed : ∀ production ∈ stmtRules, production.Typed := by
  simp only [stmtRules, List.forall_mem_cons, List.not_mem_nil, false_imp_iff, implies_true, and_true]
  refine ⟨?_, ?_, ?_, ?_, ?_, ?_, ?_, ?_, ?_⟩ <;> apply Production.typed_of_forValues
  · simp
  · simp
  · simpa using fun node => @IsStmt.dml node
  · simp
  · simp
  · simpa using IsStmt.txnBegin
  · simpa using IsStmt.txnCommit
  · simpa using IsStmt.txnAbort
  · simpa using IsStmt.txnRollback

theorem dbStmtRules_typed : ∀ production ∈ dbStmtRules, production.Typed := by
  simp only [dbStmtRules, List.forall_mem_cons, List.not_mem_nil, false_imp_iff, implies_true, and_true]
  refine ⟨?_, ?_, ?_, ?_, ?_, ?_, ?_, ?_⟩ <;> apply Production.typed_of_forValues
  · simpa using IsStmt.showTables
  · simpa using fun tabName => @IsStmt.createTable tabName
  · simpa using fun tabName => @IsStmt.dropTable tabName
  · simpa using fun tabName => @IsStmt.descTable tabName
  · simpa using fun (name : String) (_ : name ≠ "") tabName => @IsStmt.createIndex tabName
  · simpa using fun (name : String) (_ : name ≠ "") tabName htab => @IsStmt.dropIndex tabName htab [] (List.forall_mem_nil _)
  · simpa using fun tabName => @IsStmt.showIndex tabName
  · simpa [↓forall_bool] using IsStmt.setStmt

theorem ddlRules_typed : ∀ production ∈ ddlRules, production.Typed := by
  simp only [ddlRules, List.forall_mem_cons, List.not_mem_nil, false_imp_iff, implies_true, and_true]
  refine ⟨?_, ?_, ?_, ?_, ?_, ?_⟩ <;> apply Production.typed_of_forValues
  · simpa using fun tabName => @IsStmt.createTable tabName
  · simpa using fun tabName => @IsStmt.dropTable tabName
  · simpa using fun tabName => @IsStmt.descTable tabName
  · simpa using fun tabName => @IsStmt.createIndex tabName
  · simpa using fun tabName htab colNames (h : SomeOf (· ≠ "") colNames) => @IsStmt.dropIndex tabName htab colNames h.2
  · simpa using fun tabName => @IsStmt.showIndex tabName

/-- The three rules for SELECT differ in what stands in front of FROM. -/
theorem select_typed {symbol : Symbol} {act : List SemValue → Option SemValue}
    (h : ∀ val, symbol.Holds val → ∃ cols aggs, (∀ col ∈ cols, Col.WellFormed col) ∧ (∀ agg ∈ aggs, AggFunc.WellFormed agg) ∧
      ∀ head sep refs joins conds groupby having orderby limit,
        act [head, val, sep, .tableRefs refs, .joinexprs joins, .conds conds, .groupby groupby, .having having,
          .orderby orderby, .limit limit] =
          some (.node (.selectStmt cols aggs refs conds joins orderby groupby having limit))) :
    (Production.mk .dml [.t .SELECT, symbol, .t .FROM, .n .tableRefList, .n .joinExprList, .n .optWhereClause,
      .n .optGroupByClause, .n .optHavingClause, .n .optOrderClause, .n .optLimitClause] act).Typed := by
  apply Production.typed_of_forValues
  rintro head - val hval sep - _ ⟨refs, hrefs, rfl⟩ _ ⟨joins, hjoins, rfl⟩ _ ⟨conds, hconds, rfl⟩ _ ⟨groupby, hgroupby, rfl⟩
    _ ⟨having, hhaving, rfl⟩ _ ⟨orderby, horderby, rfl⟩ _ ⟨limit, rfl⟩
  obtain ⟨cols, aggs, hcols, haggs, hact⟩ := h val hval
  exact ⟨_, hact head sep refs joins conds groupby having orderby limit, _,
    isDml_selectStmt hcols haggs hrefs hjoins hconds hgroupby hhaving horderby limit, rfl⟩

theorem dmlRules_typed : ∀ production ∈ dmlRules, production.Typed := by
  simp only [dmlRules, List.forall_mem_cons, List.not_mem_nil, false_imp_iff, implies_true, and_true]
  refine ⟨Production.typed_of_forValues ?_, Production.typed_of_forValues ?_, Production.typed_of_forValues ?_,
    select_typed ?_, select_typed ?_, select_typed ?_⟩
  · simpa using fun tabName => @IsDml.insert tabName
  · simpa using fun tabName => @IsDml.delete tabName
  · simpa using fun tabName => @isDml_updateStmt tabName
  · rintro _ ⟨cols, hcols, rfl⟩
    exact ⟨cols, [], hcols, List.forall_mem_nil _, fun _ _ _ _ _ _ _ _ _ => rfl⟩
  · rintro _ ⟨aggs, haggs, rfl⟩
    exact ⟨[], aggs, List.forall_mem_nil _, haggs, fun _ _ _ _ _ _ _ _ _ => rfl⟩
  · rintro _ ⟨cols, aggs, hwf, rfl⟩
    exact ⟨cols, aggs, hwf.1, hwf.2, fun _ _ _ _ _ _ _ _ _ => rfl⟩

theorem fieldRules_typed : ∀ production ∈ fieldRules, production.Typed := by
  simp only [fieldRules, List.forall_mem_cons, List.not_mem_nil, false_imp_iff, implies_true, and_true]
  refine ⟨?_, ?_, ?_, ?_, ?_, ?_, ?_, ?_⟩ <;> apply Production.typed_of_forValues
  · simpa using fun field => @someOf_singleton _ ColDef.WellFormed field
  · simpa using fun fields => @SomeOf.snoc _ ColDef.WellFormed fields
  · simpa using fun name => @someOf_singleton _ (· ≠ "") name
  · simpa using fun names => @SomeOf.snoc _ (· ≠ "") names
  · simpa using fun colName hcol typeLen => @ColDef.WellFormed.mk ⟨colName, typeLen⟩ hcol
  · simp [TypeLen.WellFormed]
  · simp [TypeLen.WellFormed]
  · simp [TypeLen.WellFormed]

theorem valueRules_typed : ∀ production ∈ valueRules, production.Typed := by
  simp only [valueRules, List.forall_mem_cons, List.not_mem_nil, false_imp_iff, implies_true, and_true]
  refine ⟨?_, ?_, ?_, ?_, ?_, ?_⟩ <;> apply Production.typed_of_forValues
  · simp
  · simp
  · simp
  · simp
  · simp
  · simp [↓forall_bool]

theorem conditionRules_typed : ∀ production ∈ conditionRules, production.Typed := by
  simp only [conditionRules, List.forall_mem_cons, List.not_mem_nil, false_imp_iff, implies_true, and_true]
  refine ⟨?_, ?_, ?_, ?_, ?_, ?_⟩ <;> apply Production.typed_of_forValues
  · simpa using fun col => @IsCond.col col
  · simpa using fun agg => @IsCond.aggFunc agg
  · simp
  · simpa using fun conds (h : SomeOf IsCond conds) => h.2
  · simpa using fun cond => @someOf_singleton _ IsCond cond
  · simpa using fun conds => @SomeOf.snoc _ IsCond conds

theorem colRules_typed : ∀ production ∈ colRules, production.Typed := by
  simp only [colRules, List.forall_mem_cons, List.not_mem_nil, false_imp_iff, implies_true, and_true]
  refine ⟨?_, ?_, ?_, ?_, ?_, ?_, ?_, ?_, ?_, ?_, ?_, ?_⟩ <;> apply Production.typed_of_forValues
  · simp +contextual [Col.WellFormed]
  · simp +contextual [Col.WellFormed]
  · simp +contextual [Col.WellFormed]
  · simp +contextual [Col.WellFormed]
  · simpa using fun col => @someOf_singleton _ Col.WellFormed col
  · simpa using fun cols => @SomeOf.snoc _ Col.WellFormed cols
  · simp [SvCompOp.isComparison]
  · simp [SvCompOp.isComparison]
  · simp [SvCompOp.isComparison]
  · simp [SvCompOp.isComparison]
  · simp [SvCompOp.isComparison]
  · simp [SvCompOp.isComparison]

theorem exprRules_typed : ∀ production ∈ exprRules, production.Typed := by
  simp only [exprRules, List.forall_mem_cons, List.not_mem_nil, false_imp_iff, implies_true, and_true]
  refine ⟨?_, ?_, ?_, ?_, ?_, ?_, ?_, ?_, ?_, ?_⟩ <;> apply Production.typed_of_forValues
  · simpa using IsExpr.value
  · simpa using fun col => @IsExpr.col col
  · simpa using fun agg => @IsExpr.aggFunc agg
  · simpa using fun node => @IsExpr.dml node
  · simpa using fun lhs => @IsExpr.binary .add rfl lhs
  · simpa using fun lhs => @IsExpr.binary .sub rfl lhs
  · simpa using fun lhs => @IsExpr.binary .mul rfl lhs
  · simpa using fun lhs => @IsExpr.binary .div rfl lhs
  · simpa using fun rhs => @IsExpr.binary .sub rfl _ (.value (.intLit 0)) rhs
  · simp

theorem setClauseRules_typed : ∀ production ∈ setClauseRules, production.Typed := by
  simp only [setClauseRules, List.forall_mem_cons, List.not_mem_nil, false_imp_iff, implies_true, and_true]
  refine ⟨?_, ?_, ?_, ?_, ?_⟩ <;> apply Production.typed_of_forValues
  · simpa using fun clause => @someOf_singleton _ SetClause.WellFormed clause
  · simpa using fun clauses => @SomeOf.snoc _ SetClause.WellFormed clauses
  · simpa using fun colName hcol val => @SetClause.WellFormed.mk ⟨colName, val⟩ hcol
  · simp
  · simpa using fun cols (h : SomeOf Col.WellFormed cols) => h.2

theorem tableRefRules_typed : ∀ production ∈ tableRefRules, production.Typed := by
  simp only [tableRefRules, List.forall_mem_cons, List.not_mem_nil, false_imp_iff, implies_true, and_true]
  refine ⟨?_, ?_, ?_, ?_, ?_, ?_, ?_, ?_⟩ <;> apply Production.typed_of_forValues
  · simpa using fun ref => @someOf_singleton _ TableRef.WellFormed ref
  · simpa using fun refs => @SomeOf.snoc _ TableRef.WellFormed refs
  · simp
  · simpa using fun joins => @forall_mem_snoc _ IsJoin joins
  · simpa using fun ref => @isJoin_joinExpr .inner (.inl rfl) ref
  · simpa using fun ref => @isJoin_joinExpr .inner (.inl rfl) ref
  · simpa using fun ref => @isJoin_joinExpr .semi (.inr rfl) ref
  · simpa using fun ref => @isJoin_joinExpr .semi (.inr rfl) ref

theorem orderRules_typed : ∀ production ∈ orderRules, production.Typed := by
  simp only [orderRules, List.forall_mem_cons, List.not_mem_nil, false_imp_iff, implies_true, and_true]
  refine ⟨?_, ?_, ?_, ?_, ?_, ?_, ?_, ?_, ?_, ?_, ?_⟩ <;> apply Production.typed_of_forValues
  · simp
  · simp
  · simpa using fun list => @orderBy_wellFormed list
  · simpa [↓forall_orderColWithDir] using
      fun col dir hcol => @someOf_singleton _ (fun item : Col × OrderByDir => item.1.WellFormed) (col, dir) hcol
  · simpa [↓forall_orderColWithDir] using
      fun list hlist col dir hcol =>
        @SomeOf.snoc _ (fun item : Col × OrderByDir => item.1.WellFormed) list hlist (col, dir) hcol
  · simp +contextual
  · simp
  · simp
  · simp
  · simp
  · simp

theorem aggFuncRules_typed : ∀ production ∈ aggFuncRules, production.Typed := by
  simp only [aggFuncRules, List.forall_mem_cons, List.not_mem_nil, false_imp_iff, implies_true, and_true]
  refine ⟨?_, ?_, ?_, ?_, ?_, ?_, ?_, ?_, ?_, ?_, ?_, ?_⟩ <;> apply Production.typed_of_forValues
  · simp
  · simpa using fun aggs => @forall_mem_snoc _ AggFunc.WellFormed aggs
  · simp +contextual
  · simp +contextual
  · simp +contextual
  · simp +contextual
  · simp +contextual
  · simp +contextual
  · simp
  · simp
  · simp
  · simp

theorem clauseRules_typed : ∀ production ∈ clauseRules, production.Typed := by
  simp only [clauseRules, List.forall_mem_cons, List.not_mem_nil, false_imp_iff, implies_true, and_true]
  refine ⟨?_, ?_, ?_, ?_, ?_, ?_⟩ <;> apply Production.typed_of_forValues
  · simp
  · simp
  · simp
  · simp
  · simp
  · simp

theorem selectorRules_typed : ∀ production ∈ selectorRules, production.Typed := by
  simp only [selectorRules, List.forall_mem_cons, List.not_mem_nil, false_imp_iff, implies_true, and_true]
  refine ⟨?_, ?_, ?_, ?_, ?_, ?_⟩ <;> apply Production.typed_of_forValues
  · simp +contextual
  · simp +contextual
  · simp +contextual
  · simp +contextual
  · simp +contextual [↓forall_mixedSelector, or_imp]
  · simp +contextual [↓forall_mixedSelector, or_imp]

theorem nameRules_typed : ∀ production ∈ nameRules, production.Typed := by
  simp only [nameRules, List.forall_mem_cons, List.not_mem_nil, false_imp_iff, implies_true, and_true]
  refine ⟨?_, ?_, ?_, ?_, ?_, ?_⟩ <;> apply Production.typed_of_forValues
  · simp
  · simp
  · simp
  · simp +contextual [newTableRef, TableRef.WellFormed]
  · simp +contextual [newTableRef, TableRef.WellFormed]
  · simp +contextual [newTableRef, TableRef.WellFormed]

end Ast
end Rmdb
