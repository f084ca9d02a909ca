import Rmdb.Execution.Expressions
import Rmdb.Execution.SemiJoin

/-! The syntax trees of SQL statements, and the values that the parser has for its symbols. A character stands for a byte. -/
namespace Rmdb.Ast

inductive SvType where
  | int
  | float
  | string
  | bool
deriving DecidableEq, Repr

inductive AggFuncType where
  | count
  | max
  | min
  | sum
  | avg
deriving DecidableEq, Repr

inductive OrderByDir where
  | default
  | asc
  | desc
deriving DecidableEq, Repr

inductive SetKnobType where
  | enableNestLoop
  | enableSortMerge
deriving DecidableEq, Repr

structure TypeLen where
  type : SvType
  len : BitVec 32
deriving DecidableEq, Repr

/-- The only kind of field is the definition of a column. -/
structure ColDef where
  colName : String
  typeLen : TypeLen
deriving DecidableEq, Repr

inductive Value where
  | intLit (val : BitVec 32)
  | floatLit (bits : BitVec 32)
  | stringLit (val : String)
  | boolLit (val : Bool)
deriving DecidableEq, Repr

structure TableRef where
  tabName : String
  aliasName : String
deriving DecidableEq, Repr

structure Col where
  tabName : String
  colName : String
  aliasName : String
deriving DecidableEq, Repr

/-- `COUNT(*)` has no column. -/
structure AggFunc where
  funcType : AggFuncType
  col : Option Col
  aliasName : String
deriving DecidableEq, Repr

structure OrderBy where
  cols : List Col
  orderbyDirs : List OrderByDir
deriving DecidableEq, Repr

mutual

/-- A statement, or what may stand in an expression: there a statement is a subquery. -/
inductive TreeNode where
  | help
  | showTables
  | txnBegin
  | txnCommit
  | txnAbort
  | txnRollback
  | createTable (tabName : String) (fields : List ColDef)
  | dropTable (tabName : String)
  | descTable (tabName : String)
  | createIndex (tabName : String) (colNames : List String)
  | dropIndex (tabName : String) (colNames : List String)
  | showIndex (tabName : String)
  | setStmt (setKnobType : SetKnobType) (boolVal : Bool)
  | insertStmt (tabName : String) (vals : List Value)
  | deleteStmt (tabName : String) (conds : List BinaryExpr)
  | updateStmt (tabName : String) (setClauses : List SetClause) (conds : List BinaryExpr)
  | selectStmt (cols : List Col) (aggFuncs : List AggFunc) (tableRefs : List TableRef) (conds : List BinaryExpr)
      (jointree : List JoinExpr) (order : Option OrderBy) (groupBy : Option (List Col)) (having : Option (List BinaryExpr))
      (limit : Option (BitVec 32))
  | value (val : Value)
  | col (col : Col)
  | aggFunc (agg : AggFunc)
  | binary (expr : BinaryExpr)

structure BinaryExpr where
  lhs : TreeNode
  op : SvCompOp
  rhs : TreeNode

structure SetClause where
  colName : String
  val : TreeNode

/-- The left table of a JOIN clause is left empty. -/
structure JoinExpr where
  right : String
  rightAlias : String
  conds : List BinaryExpr
  type : JoinType

end

/-- What `parse_tree` points to; only the tree of a statement is marked for EXPLAIN. -/
structure ParseTree where
  node : TreeNode
  isExplain : Bool

/-- The value of a symbol, under the name of the member that holds it. An action that reads another member has no result.
`tree` is what the rules of `start` leave in `parse_tree`. -/
inductive SemValue where
  | none
  | int (val : BitVec 32)
  | float (bits : BitVec 32)
  | str (val : String)
  | bool (val : Bool)
  | orderbyDir (dir : OrderByDir)
  | strs (strs : List String)
  | node (node : TreeNode)
  | compOp (op : SvCompOp)
  | aggFuncType (type : AggFuncType)
  | typeLen (typeLen : TypeLen)
  | field (field : ColDef)
  | fields (fields : List ColDef)
  | aggFunc (agg : AggFunc)
  | aggFuncs (aggs : List AggFunc)
  | val (val : Value)
  | vals (vals : List Value)
  | col (col : Col)
  | cols (cols : List Col)
  | setClause (clause : SetClause)
  | setClauses (clauses : List SetClause)
  | cond (cond : BinaryExpr)
  | conds (conds : List BinaryExpr)
  | orderby (orderby : Option OrderBy)
  | groupby (groupby : Option (List Col))
  | having (having : Option (List BinaryExpr))
  | limit (limit : Option (BitVec 32))
  | setKnobType (type : SetKnobType)
  | mixedSelector (cols : List Col) (aggs : List AggFunc)
  | orderColWithDir (col : Col) (dir : OrderByDir)
  | orderColList (list : List (Col × OrderByDir))
  | joinexpr (join : JoinExpr)
  | joinexprs (joins : List JoinExpr)
  | tableRef (ref : TableRef)
  | tableRefs (refs : List TableRef)
  | tree (tree : Option ParseTree)

end Rmdb.Ast
