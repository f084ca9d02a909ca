import Rmdb.Parser.Ast
import Rmdb.Lib.LrParser

/-! The grammar of SQL statements, with the value that each rule makes. -/
namespace Rmdb.Ast

/-- The terminals, in the order of their symbol numbers. -/
inductive Terminal where
  | YYEOF | YYerror | YYUNDEF | SHOW | TABLES | CREATE | TABLE | DROP | DESC | INSERT | INTO | VALUES | DELETE
  | FROM | ASC | WHERE | UPDATE | SET | SELECT | INT | CHAR | FLOAT | INDEX | AND | JOIN | SEMI | EXIT | HELP
  | TXN_BEGIN | TXN_COMMIT | TXN_ABORT | TXN_ROLLBACK | ENABLE_NESTLOOP | ENABLE_SORTMERGE | COUNT | MAX | MIN
  | SUM | AVG | GROUP | HAVING | LIMIT | AS | ORDER | BY | ON | LEQ | NEQ | GEQ | T_EOF | EXPLAIN | IDENTIFIER
  | VALUE_STRING | VALUE_INT | VALUE_FLOAT | VALUE_BOOL | plus | minus | star | slash | UMINUS | semi | lparen
  | rparen | eq | comma | dot | lt | gt
deriving DecidableEq

/-- The nonterminals, in the order of their symbol numbers. -/
inductive Nonterminal where
  | accept | start | stmt | txnStmt | dbStmt | setStmt | ddl | dml | fieldList | colNameList | field | type
  | valueList | value | condition | optWhereClause | whereClause | col | colList | op | expr | setClauses
  | setClause | selector | tableRefList | joinExprList | joinClause | optOrderClause | orderClause | orderColList
  | orderColWithDir | optAscDesc | setKnobType | aggFuncList | aggFunc | aggFuncType | optGroupByClause
  | optHavingClause | optLimitClause | mixedSelector | tbName | colName | indexName | tableRef
deriving DecidableEq

def Terminal.num (t : Terminal) : ℕ := t.ctorIdx

def Nonterminal.num (A : Nonterminal) : ℕ := 69 + A.ctorIdx

inductive Symbol where
  | t (terminal : Terminal)
  | n (nonterminal : Nonterminal)
deriving DecidableEq

def Symbol.num : Symbol → ℕ
  | .t terminal => terminal.num
  | .n nonterminal => nonterminal.num

structure Production where
  lhs : Nonterminal
  rhs : List Symbol
  act : List SemValue → Option SemValue

/-- The parse ends with a rule of `start`. -/
def Production.toRule (production : Production) : LrParser.Rule SemValue where
  lhs := production.lhs.num
  rhs := production.rhs.map Symbol.num
  act := production.act
  final := production.lhs = .start

/-- The action of a rule with one symbol that says nothing else. -/
def copy : List SemValue → Option SemValue
  | [val] => some val
  | _ => none

def newTableRef (tab : String) (aliasName : Option String) : TableRef := ⟨tab, aliasName.getD ""⟩

def startRules : List Production := [
  ⟨.start, [.n .stmt, .t .semi], fun
    | [.node node, _] => some (.tree (some ⟨node, false⟩))
    | _ => none⟩,
  ⟨.start, [.t .EXPLAIN, .n .stmt, .t .semi], fun
    | [_, .node node, _] => some (.tree (some ⟨node, true⟩))
    | _ => none⟩,
  ⟨.start, [.t .HELP], fun
    | [_] => some (.tree (some ⟨.help, false⟩))
    | _ => none⟩,
  ⟨.start, [.t .EXIT], fun
    | [_] => some (.tree none)
    | _ => none⟩,
  ⟨.start, [.t .T_EOF], fun
    | [_] => some (.tree none)
    | _ => none⟩]

def stmtRules : List Production := [
  ⟨.stmt, [.n .dbStmt], copy⟩,
  ⟨.stmt, [.n .ddl], copy⟩,
  ⟨.stmt, [.n .dml], copy⟩,
  ⟨.stmt, [.n .txnStmt], copy⟩,
  ⟨.stmt, [.n .setStmt], copy⟩,
  ⟨.txnStmt, [.t .TXN_BEGIN], fun
    | [_] => some (.node .txnBegin)
    | _ => none⟩,
  ⟨.txnStmt, [.t .TXN_COMMIT], fun
    | [_] => some (.node .txnCommit)
    | _ => none⟩,
  ⟨.txnStmt, [.t .TXN_ABORT], fun
    | [_] => some (.node .txnAbort)
    | _ => none⟩,
  ⟨.txnStmt, [.t .TXN_ROLLBACK], fun
    | [_] => some (.node .txnRollback)
    | _ => none⟩]

def dbStmtRules : List Production := [
  ⟨.dbStmt, [.t .SHOW, .t .TABLES], fun
    | [_, _] => some (.node .showTables)
    | _ => none⟩,
  ⟨.dbStmt, [.t .CREATE, .t .TABLE, .n .tbName, .t .lparen, .n .fieldList, .t .rparen], fun
    | [_, _, .str tabName, _, .fields fields, _] => some (.node (.createTable tabName fields))
    | _ => none⟩,
  ⟨.dbStmt, [.t .DROP, .t .TABLE, .n .tbName], fun
    | [_, _, .str tabName] => some (.node (.dropTable tabName))
    | _ => none⟩,
  ⟨.dbStmt, [.t .DESC, .n .tbName], fun
    | [_, .str tabName] => some (.node (.descTable tabName))
    | _ => none⟩,
  ⟨.dbStmt, [.t .CREATE, .t .INDEX, .n .indexName, .t .ON, .n .tbName, .t .lparen, .n .colNameList, .t .rparen], fun
    | [_, _, _, _, .str tabName, _, .strs colNames, _] => some (.node (.createIndex tabName colNames))
    | _ => none⟩,
  ⟨.dbStmt, [.t .DROP, .t .INDEX, .n .indexName, .t .ON, .n .tbName], fun
    | [_, _, _, _, .str tabName] => some (.node (.dropIndex tabName []))
    | _ => none⟩,
  ⟨.dbStmt, [.t .SHOW, .t .INDEX, .n .tbName], fun
    | [_, _, .str tabName] => some (.node (.showIndex tabName))
    | _ => none⟩,
  ⟨.setStmt, [.t .SET, .n .setKnobType, .t .eq, .t .VALUE_BOOL], fun
    | [_, .setKnobType type, _, .bool val] => some (.node (.setStmt type val))
    | _ => none⟩]

def ddlRules : List Production := [
  ⟨.ddl, [.t .CREATE, .t .TABLE, .n .tbName, .t .lparen, .n .fieldList, .t .rparen], fun
    | [_, _, .str tabName, _, .fields fields, _] => some (.node (.createTable tabName fields))
    | _ => none⟩,
  ⟨.ddl, [.t .DROP, .t .TABLE, .n .tbName], fun
    | [_, _, .str tabName] => some (.node (.dropTable tabName))
    | _ => none⟩,
  ⟨.ddl, [.t .DESC, .n .tbName], fun
    | [_, .str tabName] => some (.node (.descTable tabName))
    | _ => none⟩,
  ⟨.ddl, [.t .CREATE, .t .INDEX, .n .tbName, .t .lparen, .n .colNameList, .t .rparen], fun
    | [_, _, .str tabName, _, .strs colNames, _] => some (.node (.createIndex tabName colNames))
    | _ => none⟩,
  ⟨.ddl, [.t .DROP, .t .INDEX, .n .tbName, .t .lparen, .n .colNameList, .t .rparen], fun
    | [_, _, .str tabName, _, .strs colNames, _] => some (.node (.dropIndex tabName colNames))
    | _ => none⟩,
  ⟨.ddl, [.t .SHOW, .t .INDEX, .t .FROM, .n .tbName], fun
    | [_, _, _, .str tabName] => some (.node (.showIndex tabName))
    | _ => none⟩]

def dmlRules : List Production := [
  ⟨.dml, [.t .INSERT, .t .INTO, .n .tbName, .t .VALUES, .t .lparen, .n .valueList, .t .rparen], fun
    | [_, _, .str tabName, _, _, .vals vals, _] => some (.node (.insertStmt tabName vals))
    | _ => none⟩,
  ⟨.dml, [.t .DELETE, .t .FROM, .n .tbName, .n .optWhereClause], fun
    | [_, _, .str tabName, .conds conds] => some (.node (.deleteStmt tabName conds))
    | _ => none⟩,
  ⟨.dml, [.t .UPDATE, .n .tbName, .t .SET, .n .setClauses, .n .optWhereClause], fun
    | [_, .str tabName, _, .setClauses clauses, .conds conds] => some (.node (.updateStmt tabName clauses conds))
    | _ => none⟩,
  ⟨.dml, [.t .SELECT, .n .selector, .t .FROM, .n .tableRefList, .n .joinExprList, .n .optWhereClause,
    .n .optGroupByClause, .n .optHavingClause, .n .optOrderClause, .n .optLimitClause], fun
    | [_, .cols cols, _, .tableRefs refs, .joinexprs joins, .conds conds, .groupby groupby,
        .having having, .orderby orderby, .limit limit] =>
      some (.node (.selectStmt cols [] refs conds joins orderby groupby having limit))
    | _ => none⟩,
  ⟨.dml, [.t .SELECT, .n .aggFuncList, .t .FROM, .n .tableRefList, .n .joinExprList, .n .optWhereClause,
    .n .optGroupByClause, .n .optHavingClause, .n .optOrderClause, .n .optLimitClause], fun
    | [_, .aggFuncs aggs, _, .tableRefs refs, .joinexprs joins, .conds conds, .groupby groupby,
        .having having, .orderby orderby, .limit limit] =>
      some (.node (.selectStmt [] aggs refs conds joins orderby groupby having limit))
    | _ => none⟩,
  ⟨.dml, [.t .SELECT, .n .mixedSelector, .t .FROM, .n .tableRefList, .n .joinExprList, .n .optWhereClause,
    .n .optGroupByClause, .n .optHavingClause, .n .optOrderClause, .n .optLimitClause], fun
    | [_, .mixedSelector cols aggs, _, .tableRefs refs, .joinexprs joins, .conds conds, .groupby groupby,
        .having having, .orderby orderby, .limit limit] =>
      some (.node (.selectStmt cols aggs refs conds joins orderby groupby having limit))
    | _ => none⟩]

def fieldRules : List Production := [
  ⟨.fieldList, [.n .field], fun
    | [.field x] => some (.fields [x])
    | _ => none⟩,
  ⟨.fieldList, [.n .fieldList, .t .comma, .n .field], fun
    | [.fields xs, _, .field x] => some (.fields (xs ++ [x]))
    | _ => none⟩,
  ⟨.colNameList, [.n .colName], fun
    | [.str x] => some (.strs [x])
    | _ => none⟩,
  ⟨.colNameList, [.n .colNameList, .t .comma, .n .colName], fun
    | [.strs xs, _, .str x] => some (.strs (xs ++ [x]))
    | _ => none⟩,
  ⟨.field, [.n .colName, .n .type], fun
    | [.str colName, .typeLen typeLen] => some (.field ⟨colName, typeLen⟩)
    | _ => none⟩,
  ⟨.type, [.t .INT], fun
    | [_] => some (.typeLen ⟨.int, 4⟩)
    | _ => none⟩,
  ⟨.type, [.t .CHAR, .t .lparen, .t .VALUE_INT, .t .rparen], fun
    | [_, _, .int len, _] => some (.typeLen ⟨.string, len⟩)
    | _ => none⟩,
  ⟨.type, [.t .FLOAT], fun
    | [_] => some (.typeLen ⟨.float, 4⟩)
    | _ => none⟩]

def valueRules : List Production := [
  ⟨.valueList, [.n .value], fun
    | [.val x] => some (.vals [x])
    | _ => none⟩,
  ⟨.valueList, [.n .valueList, .t .comma, .n .value], fun
    | [.vals xs, _, .val x] => some (.vals (xs ++ [x]))
    | _ => none⟩,
  ⟨.value, [.t .VALUE_INT], fun
    | [.int val] => some (.val (.intLit val))
    | _ => none⟩,
  ⟨.value, [.t .VALUE_FLOAT], fun
    | [.float bits] => some (.val (.floatLit bits))
    | _ => none⟩,
  ⟨.value, [.t .VALUE_STRING], fun
    | [.str val] => some (.val (.stringLit val))
    | _ => none⟩,
  ⟨.value, [.t .VALUE_BOOL], fun
    | [.bool val] => some (.val (.boolLit val))
    | _ => none⟩]

def conditionRules : List Production := [
  ⟨.condition, [.n .col, .n .op, .n .expr], fun
    | [.col col, .compOp op, .node expr] => some (.cond ⟨.col col, op, expr⟩)
    | _ => none⟩,
  ⟨.condition, [.n .aggFunc, .n .op, .n .expr], fun
    | [.aggFunc agg, .compOp op, .node expr] => some (.cond ⟨.aggFunc agg, op, expr⟩)
    | _ => none⟩,
  ⟨.optWhereClause, [], fun
    | [] => some (.conds [])
    | _ => none⟩,
  ⟨.optWhereClause, [.t .WHERE, .n .whereClause], fun
    | [_, .conds conds] => some (.conds conds)
    | _ => none⟩,
  ⟨.whereClause, [.n .condition], fun
    | [.cond x] => some (.conds [x])
    | _ => none⟩,
  ⟨.whereClause, [.n .whereClause, .t .AND, .n .condition], fun
    | [.conds xs, _, .cond x] => some (.conds (xs ++ [x]))
    | _ => none⟩]

def colRules : List Production := [
  ⟨.col, [.n .tbName, .t .dot, .n .colName], fun
    | [.str tabName, _, .str colName] => some (.col ⟨tabName, colName, ""⟩)
    | _ => none⟩,
  ⟨.col, [.n .colName], fun
    | [.str colName] => some (.col ⟨"", colName, ""⟩)
    | _ => none⟩,
  ⟨.col, [.n .tbName, .t .dot, .n .colName, .t .AS, .t .IDENTIFIER], fun
    | [.str tabName, _, .str colName, _, .str aliasName] => some (.col ⟨tabName, colName, aliasName⟩)
    | _ => none⟩,
  ⟨.col, [.n .colName, .t .AS, .t .IDENTIFIER], fun
    | [.str colName, _, .str aliasName] => some (.col ⟨"", colName, aliasName⟩)
    | _ => none⟩,
  ⟨.colList, [.n .col], fun
    | [.col x] => some (.cols [x])
    | _ => none⟩,
  ⟨.colList, [.n .colList, .t .comma, .n .col], fun
    | [.cols xs, _, .col x] => some (.cols (xs ++ [x]))
    | _ => none⟩,
  ⟨.op, [.t .eq], fun
    | [_] => some (.compOp .eq)
    | _ => none⟩,
  ⟨.op, [.t .lt], fun
    | [_] => some (.compOp .lt)
    | _ => none⟩,
  ⟨.op, [.t .gt], fun
    | [_] => some (.compOp .gt)
    | _ => none⟩,
  ⟨.op, [.t .NEQ], fun
    | [_] => some (.compOp .ne)
    | _ => none⟩,
  ⟨.op, [.t .LEQ], fun
    | [_] => some (.compOp .le)
    | _ => none⟩,
  ⟨.op, [.t .GEQ], fun
    | [_] => some (.compOp .ge)
    | _ => none⟩]

def exprRules : List Production := [
  ⟨.expr, [.n .value], fun
    | [.val val] => some (.node (.value val))
    | _ => none⟩,
  ⟨.expr, [.n .col], fun
    | [.col col] => some (.node (.col col))
    | _ => none⟩,
  ⟨.expr, [.n .aggFunc], fun
    | [.aggFunc agg] => some (.node (.aggFunc agg))
    | _ => none⟩,
  ⟨.expr, [.t .lparen, .n .dml, .t .rparen], fun
    | [_, .node node, _] => some (.node node)
    | _ => none⟩,
  ⟨.expr, [.n .expr, .t .plus, .n .expr], fun
    | [.node lhs, _, .node rhs] => some (.node (.binary ⟨lhs, .add, rhs⟩))
    | _ => none⟩,
  ⟨.expr, [.n .expr, .t .minus, .n .expr], fun
    | [.node lhs, _, .node rhs] => some (.node (.binary ⟨lhs, .sub, rhs⟩))
    | _ => none⟩,
  ⟨.expr, [.n .expr, .t .star, .n .expr], fun
    | [.node lhs, _, .node rhs] => some (.node (.binary ⟨lhs, .mul, rhs⟩))
    | _ => none⟩,
  ⟨.expr, [.n .expr, .t .slash, .n .expr], fun
    | [.node lhs, _, .node rhs] => some (.node (.binary ⟨lhs, .div, rhs⟩))
    | _ => none⟩,
  ⟨.expr, [.t .minus, .n .expr], fun
    | [_, .node expr] => some (.node (.binary ⟨.value (.intLit 0), .sub, expr⟩))
    | _ => none⟩,
  ⟨.expr, [.t .lparen, .n .expr, .t .rparen], fun
    | [_, .node expr, _] => some (.node expr)
    | _ => none⟩]

def setClauseRules : List Production := [
  ⟨.setClauses, [.n .setClause], fun
    | [.setClause x] => some (.setClauses [x])
    | _ => none⟩,
  ⟨.setClauses, [.n .setClauses, .t .comma, .n .setClause], fun
    | [.setClauses xs, _, .setClause x] => some (.setClauses (xs ++ [x]))
    | _ => none⟩,
  ⟨.setClause, [.n .colName, .t .eq, .n .expr], fun
    | [.str colName, _, .node expr] => some (.setClause ⟨colName, expr⟩)
    | _ => none⟩,
  ⟨.selector, [.t .star], fun
    | [_] => some (.cols [])
    | _ => none⟩,
  ⟨.selector, [.n .colList], copy⟩]

def tableRefRules : List Production := [
  ⟨.tableRefList, [.n .tableRef], fun
    | [.tableRef x] => some (.tableRefs [x])
    | _ => none⟩,
  ⟨.tableRefList, [.n .tableRefList, .t .comma, .n .tableRef], fun
    | [.tableRefs xs, _, .tableRef x] => some (.tableRefs (xs ++ [x]))
    | _ => none⟩,
  ⟨.joinExprList, [], fun
    | [] => some (.joinexprs [])
    | _ => none⟩,
  ⟨.joinExprList, [.n .joinExprList, .n .joinClause], fun
    | [.joinexprs joins, .joinexpr join] => some (.joinexprs (joins ++ [join]))
    | _ => none⟩,
  ⟨.joinClause, [.t .JOIN, .n .tableRef, .t .ON, .n .whereClause], fun
    | [_, .tableRef ref, _, .conds conds] => some (.joinexpr ⟨ref.tabName, ref.aliasName, conds, .inner⟩)
    | _ => none⟩,
  ⟨.joinClause, [.t .JOIN, .n .tableRef, .t .WHERE, .n .whereClause], fun
    | [_, .tableRef ref, _, .conds conds] => some (.joinexpr ⟨ref.tabName, ref.aliasName, conds, .inner⟩)
    | _ => none⟩,
  ⟨.joinClause, [.t .SEMI, .t .JOIN, .n .tableRef, .t .ON, .n .whereClause], fun
    | [_, _, .tableRef ref, _, .conds conds] => some (.joinexpr ⟨ref.tabName, ref.aliasName, conds, .semi⟩)
    | _ => none⟩,
  ⟨.joinClause, [.t .SEMI, .t .JOIN, .n .tableRef, .t .WHERE, .n .whereClause], fun
    | [_, _, .tableRef ref, _, .conds conds] => some (.joinexpr ⟨ref.tabName, ref.aliasName, conds, .semi⟩)
    | _ => none⟩]

def orderRules : List Production := [
  ⟨.optOrderClause, [.t .ORDER, .t .BY, .n .orderClause], fun
    | [_, _, .orderby orderby] => some (.orderby orderby)
    | _ => none⟩,
  ⟨.optOrderClause, [], fun
    | [] => some (.orderby none)
    | _ => none⟩,
  ⟨.orderClause, [.n .orderColList], fun
    | [.orderColList list] => some (.orderby (some ⟨list.map Prod.fst, list.map Prod.snd⟩))
    | _ => none⟩,
  ⟨.orderColList, [.n .orderColWithDir], fun
    | [.orderColWithDir col dir] => some (.orderColList [(col, dir)])
    | _ => none⟩,
  ⟨.orderColList, [.n .orderColList, .t .comma, .n .orderColWithDir], fun
    | [.orderColList list, _, .orderColWithDir col dir] => some (.orderColList (list ++ [(col, dir)]))
    | _ => none⟩,
  ⟨.orderColWithDir, [.n .col, .n .optAscDesc], fun
    | [.col col, .orderbyDir dir] => some (.orderColWithDir col dir)
    | _ => none⟩,
  ⟨.optAscDesc, [.t .ASC], fun
    | [_] => some (.orderbyDir .asc)
    | _ => none⟩,
  ⟨.optAscDesc, [.t .DESC], fun
    | [_] => some (.orderbyDir .desc)
    | _ => none⟩,
  ⟨.optAscDesc, [], fun
    | [] => some (.orderbyDir .default)
    | _ => none⟩,
  ⟨.setKnobType, [.t .ENABLE_NESTLOOP], fun
    | [_] => some (.setKnobType .enableNestLoop)
    | _ => none⟩,
  ⟨.setKnobType, [.t .ENABLE_SORTMERGE], fun
    | [_] => some (.setKnobType .enableSortMerge)
    | _ => none⟩]

def aggFuncRules : List Production := [
  ⟨.aggFuncList, [.n .aggFunc], fun
    | [.aggFunc x] => some (.aggFuncs [x])
    | _ => none⟩,
  ⟨.aggFuncList, [.n .aggFuncList, .t .comma, .n .aggFunc], fun
    | [.aggFuncs xs, _, .aggFunc x] => some (.aggFuncs (xs ++ [x]))
    | _ => none⟩,
  ⟨.aggFunc, [.t .COUNT, .t .lparen, .t .star, .t .rparen], fun
    | [_, _, _, _] => some (.aggFunc ⟨.count, none, ""⟩)
    | _ => none⟩,
  ⟨.aggFunc, [.t .COUNT, .t .lparen, .t .star, .t .rparen, .t .AS, .t .IDENTIFIER], fun
    | [_, _, _, _, _, .str aliasName] => some (.aggFunc ⟨.count, none, aliasName⟩)
    | _ => none⟩,
  ⟨.aggFunc, [.t .COUNT, .t .lparen, .n .col, .t .rparen], fun
    | [_, _, .col col, _] => some (.aggFunc ⟨.count, some col, ""⟩)
    | _ => none⟩,
  ⟨.aggFunc, [.t .COUNT, .t .lparen, .n .col, .t .rparen, .t .AS, .t .IDENTIFIER], fun
    | [_, _, .col col, _, _, .str aliasName] => some (.aggFunc ⟨.count, some col, aliasName⟩)
    | _ => none⟩,
  ⟨.aggFunc, [.n .aggFuncType, .t .lparen, .n .col, .t .rparen], fun
    | [.aggFuncType type, _, .col col, _] => some (.aggFunc ⟨type, some col, ""⟩)
    | _ => none⟩,
  ⟨.aggFunc, [.n .aggFuncType, .t .lparen, .n .col, .t .rparen, .t .AS, .t .IDENTIFIER], fun
    | [.aggFuncType type, _, .col col, _, _, .str aliasName] => some (.aggFunc ⟨type, some col, aliasName⟩)
    | _ => none⟩,
  ⟨.aggFuncType, [.t .MAX], fun
    | [_] => some (.aggFuncType .max)
    | _ => none⟩,
  ⟨.aggFuncType, [.t .MIN], fun
    | [_] => some (.aggFuncType .min)
    | _ => none⟩,
  ⟨.aggFuncType, [.t .SUM], fun
    | [_] => some (.aggFuncType .sum)
    | _ => none⟩,
  ⟨.aggFuncType, [.t .AVG], fun
    | [_] => some (.aggFuncType .avg)
    | _ => none⟩]

def clauseRules : List Production := [
  ⟨.optGroupByClause, [], fun
    | [] => some (.groupby none)
    | _ => none⟩,
  ⟨.optGroupByClause, [.t .GROUP, .t .BY, .n .colList], fun
    | [_, _, .cols cols] => some (.groupby (some cols))
    | _ => none⟩,
  ⟨.optHavingClause, [], fun
    | [] => some (.having none)
    | _ => none⟩,
  ⟨.optHavingClause, [.t .HAVING, .n .whereClause], fun
    | [_, .conds conds] => some (.having (some conds))
    | _ => none⟩,
  ⟨.optLimitClause, [], fun
    | [] => some (.limit none)
    | _ => none⟩,
  ⟨.optLimitClause, [.t .LIMIT, .t .VALUE_INT], fun
    | [_, .int val] => some (.limit (some val))
    | _ => none⟩]

def selectorRules : List Production := [
  ⟨.mixedSelector, [.n .col, .t .comma, .n .aggFunc], fun
    | [.col col, _, .aggFunc agg] => some (.mixedSelector [col] [agg])
    | _ => none⟩,
  ⟨.mixedSelector, [.n .aggFunc, .t .comma, .n .col], fun
    | [.aggFunc agg, _, .col col] => some (.mixedSelector [col] [agg])
    | _ => none⟩,
  ⟨.mixedSelector, [.n .col, .t .comma, .n .col], fun
    | [.col col, _, .col col'] => some (.mixedSelector [col, col'] [])
    | _ => none⟩,
  ⟨.mixedSelector, [.n .aggFunc, .t .comma, .n .aggFunc], fun
    | [.aggFunc agg, _, .aggFunc agg'] => some (.mixedSelector [] [agg, agg'])
    | _ => none⟩,
  ⟨.mixedSelector, [.n .mixedSelector, .t .comma, .n .col], fun
    | [.mixedSelector cols aggs, _, .col col] => some (.mixedSelector (cols ++ [col]) aggs)
    | _ => none⟩,
  ⟨.mixedSelector, [.n .mixedSelector, .t .comma, .n .aggFunc], fun
    | [.mixedSelector cols aggs, _, .aggFunc agg] => some (.mixedSelector cols (aggs ++ [agg]))
    | _ => none⟩]

def nameRules : List Production := [
  ⟨.tbName, [.t .IDENTIFIER], copy⟩,
  ⟨.colName, [.t .IDENTIFIER], copy⟩,
  ⟨.indexName, [.t .IDENTIFIER], copy⟩,
  ⟨.tableRef, [.t .IDENTIFIER], fun
    | [.str tabName] => some (.tableRef (newTableRef tabName none))
    | _ => none⟩,
  ⟨.tableRef, [.t .IDENTIFIER, .t .IDENTIFIER], fun
    | [.str tabName, .str aliasName] => some (.tableRef (newTableRef tabName (some aliasName)))
    | _ => none⟩,
  ⟨.tableRef, [.t .IDENTIFIER, .t .AS, .t .IDENTIFIER], fun
    | [.str tabName, _, .str aliasName] => some (.tableRef (newTableRef tabName (some aliasName)))
    | _ => none⟩]

/-- There is no rule 0, and rule 1 is for the end behind a statement, which the rules of `start` do not wait for. -/
def unusedRules : List Production := List.replicate 2 ⟨.accept, [.n .start, .t .YYEOF], List.head?⟩

/-- The rules in the order of their numbers. -/
def productions : List Production :=
  unusedRules ++ startRules ++ stmtRules ++ dbStmtRules ++ ddlRules ++ dmlRules ++ fieldRules ++ valueRules ++
    conditionRules ++ colRules ++ exprRules ++ setClauseRules ++ tableRefRules ++ orderRules ++ aggFuncRules ++
    clauseRules ++ selectorRules ++ nameRules

def rules : List (LrParser.Rule SemValue) := productions.map Production.toRule

end Rmdb.Ast
